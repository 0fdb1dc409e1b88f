import DLmdb.Framework.Prefixes
import DLmdb.StateMachine.Apply
import DLmdb.StateMachine.Reads
import Mathlib.Data.List.DropRight

/-!
# Prefix scans and reverse scans

A prefix scan is a forward scan from the prefix, or from beyond `after`, up to the end
that `next_prefix` computes. A reverse scan walks its range forward as well and keeps
the last entries in a window. Both are compared with what they are for: the first
accepted entries of the prefix, and the reverse of the forward scan.
-/

namespace DLmdb

open Framework Lmdb

/-! ## The code -/

/-- The loop of `next_prefix`, which sees the bytes from the last one on. -/
def nextPrefixLoop : Bytes → Option Bytes
  | [] => none
  | b :: next => if b < 0xFF then some ((b + 1) :: next) else nextPrefixLoop next

def nextPrefix (pfx : Bytes) : Option Bytes := (nextPrefixLoop pfx.reverse).map List.reverse

/-- One turn of that loop on `next`: what it returns, or `next` without its last byte. -/
def nextPrefixTurn (next : Bytes) : Option Bytes ⊕ Bytes :=
  match next.getLast? with
  | none => .inl none
  | some b => if b < 0xFF then .inl (some (next.dropLast ++ [b + 1])) else .inr next.dropLast

/-- The loop, for at most `fuel` turns; `none` is a loop that has not returned by then. -/
def nextPrefixTurns : ℕ → Bytes → Option (Option Bytes)
  | 0, _ => none
  | fuel + 1, next =>
      match nextPrefixTurn next with
      | .inl r => some r
      | .inr next => nextPrefixTurns fuel next

/-- What the `filter` makes of a value. -/
def scanCandidate (filter : Option ScanFilter) (v : Bytes) : Option Bytes :=
  match filter with
  | some f => f v
  | none => some v

/-- `pop_front` if the window is full, then `push_back`. -/
def pushWindow (limit : Option ℕ) (window : List (Bytes × Bytes)) (e : Bytes × Bytes) :
    List (Bytes × Bytes) :=
  (if atCap limit window then window.tail else window) ++ [e]

/-- The `for result in iter` loop of `scan_range_rev`. -/
def windowLoop (limit : Option ℕ) (filter : Option ScanFilter) :
    List (Bytes × Bytes) → Txn SmDb → List (Bytes × Bytes) →
      Except HeedError (List (Bytes × Bytes))
  | [], _, window => .ok window
  | (k, v) :: items, rtxn, window => do
      let rtxn ← rtxn.tick
      match scanCandidate filter v with
      | some payload => windowLoop limit filter items rtxn (pushWindow limit window (k, payload))
      | none => windowLoop limit filter items rtxn window

/-- Where `scan_prefix_bounded` starts: `after` takes the place of the prefix. -/
def prefixStart (pfx : Bytes) (after : Option Bytes) : Bound :=
  match after with
  | some a => .excluded a
  | none => .included pfx

namespace LmdbStateMachine

def scanPrefixBounded (flt : Faults) (sm : LmdbStateMachine) (pfx : Bytes)
    (after : Option Bytes) (limit : Option ℕ) (filter : Option ScanFilter) :
    Except EngineError ScanResult :=
  if pfx = [] then .ok sm.emptyKeyGuard
  else
    let endKey := nextPrefix pfx
    let start := prefixStart pfx after
    sm.scanRangeCore flt start endKey limit filter

/-- `scan_prefix` of the `StateMachine` trait. -/
def scanPrefix (flt : Faults) (sm : LmdbStateMachine) (pfx : Bytes) :
    Except EngineError ScanResult :=
  sm.scanPrefixBounded flt pfx none none none

def scanRangeRev (flt : Faults) (sm : LmdbStateMachine) (start stop : Bytes)
    (limit : Option ℕ) (filter : Option ScanFilter) : Except EngineError ScanResult :=
  if start = [] then .ok sm.emptyKeyGuard
  else
    Except.mapError lmdbErr do
      let rtxn ← Txn.begin flt sm.env
      let revision := sm.lastAppliedIndex
      let (rtxn, iter) ← rtxn.range .kvDb (.included start) (.excluded stop)
      let window ← windowLoop limit filter iter rtxn []
      let entries := window.reverse
      return ⟨entries, revision⟩

end LmdbStateMachine

/-! ## `next_prefix` -/

theorem nextPrefix_concat (p : Bytes) (b : UInt8) :
    nextPrefix (p ++ [b]) = if b < 0xFF then some (p ++ [b + 1]) else nextPrefix p := by
  unfold nextPrefix
  rw [List.reverse_append, List.reverse_singleton, List.singleton_append, nextPrefixLoop]
  split
  · simp
  · rfl

theorem compare_succ_eq_lt {b : UInt8} (hb : b < 0xFF) (x : UInt8) :
    compare x (b + 1) = .lt ↔ (compare x b).isLE := by
  have hsucc : (b + 1).toNat = b.toNat + 1 := by
    have hlt : b.toNat < 255 := UInt8.lt_iff_toNat_lt.mp hb
    rw [UInt8.toNat_add]
    show (b.toNat + 1) % 256 = b.toNat + 1
    omega
  rw [compare_toNat, compare_toNat, hsucc, Nat.compare_eq_lt, Nat.isLE_compare]
  exact Nat.lt_succ_iff

theorem eq_of_isLE_top {b : UInt8} (hb : ¬ b < 0xFF) (x : UInt8) (h : (compare b x).isLE) :
    x = b := by
  rw [compare_toNat, Nat.isLE_compare] at h
  have hb' : ¬ b.toNat < 255 := fun hlt => hb (UInt8.lt_iff_toNat_lt.mpr hlt)
  have hx := x.toNat_lt
  exact UInt8.toNat_inj.mp (by omega)

/-- **The keys of a prefix are the interval from it to its `next_prefix`**, which is
unbounded when every byte is `0xFF`. -/
theorem isPrefix_iff_nextPrefix (p k : Bytes) :
    p <+: k ↔ (compare p k).isLE ∧ ∀ e ∈ nextPrefix p, compare k e = .lt := by
  induction p using List.reverseRecOn with
  | nil =>
      refine iff_of_true List.nil_prefix ⟨List.isLE_compare_nil_left, ?_⟩
      rintro e ⟨⟩
  | append_singleton p b ih =>
      rw [nextPrefix_concat]
      by_cases hb : b < 0xFF
      · rw [if_pos hb, concat_prefix_iff_of_covers (compare_succ_eq_lt hb)]
        simp
      · -- the byte cannot grow: the end is that of the bytes before it
        rw [if_neg hb, concat_prefix_iff_of_top (eq_of_isLE_top hb), ih]
        constructor
        · rintro ⟨hle, -, hlt⟩
          exact ⟨hle, hlt⟩
        · rintro ⟨hle, hlt⟩
          have hp : (compare p (p ++ [b])).isLE :=
            isLE_compare_of_isPrefix (List.prefix_append p [b])
          exact ⟨hle, Std.TransCmp.isLE_trans hp hle, hlt⟩

theorem nextPrefixTurn_concat (p : Bytes) (b : UInt8) :
    nextPrefixTurn (p ++ [b]) = if b < 0xFF then .inl (some (p ++ [b + 1])) else .inr p := by
  simp [nextPrefixTurn]

/-- The loop returns: every turn that goes on takes a byte away. -/
theorem nextPrefixTurns_eq (p : Bytes) :
    nextPrefixTurns (p.length + 1) p = some (nextPrefix p) := by
  induction p using List.reverseRecOn with
  | nil => rfl
  | append_singleton p b ih =>
      rw [nextPrefixTurns, nextPrefixTurn_concat, nextPrefix_concat, List.length_append]
      by_cases hb : b < 0xFF
      · rw [if_pos hb, if_pos hb]
      · rw [if_neg hb, if_neg hb]
        exact ih

theorem eq_top_of_not_lt {b : UInt8} (hb : ¬ b < 0xFF) : b = 0xFF := by
  have hb' : ¬ b.toNat < 255 := fun hlt => hb (UInt8.lt_iff_toNat_lt.mpr hlt)
  have hlt := b.toNat_lt
  refine UInt8.toNat_inj.mp ?_
  show b.toNat = 255
  omega

/-- There is no end exactly when no byte can grow. -/
theorem nextPrefix_eq_none_iff (p : Bytes) : nextPrefix p = none ↔ ∀ b ∈ p, b = 0xFF := by
  induction p using List.reverseRecOn with
  | nil => exact iff_of_true rfl (by simp)
  | append_singleton p b ih =>
      rw [nextPrefix_concat]
      by_cases hb : b < 0xFF
      · rw [if_pos hb]
        refine iff_of_false nofun ?_
        intro hall
        rw [hall b (List.mem_append_right p List.mem_cons_self)] at hb
        exact absurd hb (by decide)
      · rw [if_neg hb, ih]
        simp [or_imp, eq_top_of_not_lt hb]

/-- Whatever is above every key of the prefix is at or above its end. -/
theorem nextPrefix_le_of_above {p e x : Bytes} (he : nextPrefix p = some e)
    (hx : ∀ k, p <+: k → compare k x = .lt) : (compare e x).isLE := by
  by_contra hgt
  have hxe : compare x e = .lt := Std.OrientedCmp.lt_of_not_isLE hgt
  have hpx : compare p x = .lt := hx p List.prefix_rfl
  have hmem : p <+: x := by
    refine (isPrefix_iff_nextPrefix p x).mpr ⟨Ordering.isLE_of_eq_lt hpx, ?_⟩
    rw [he]
    rintro e' ⟨⟩
    exact hxe
  have hself := hx x hmem
  rw [Std.compare_self] at hself
  cases hself

/-- **`next_prefix` delimits a prefix exactly.** Its loop returns; there is no end just
when every byte is `0xFF`; the keys of the prefix are those from it up to the end; and the
end is the least string above them all. -/
theorem nextPrefix_delimits (p : Bytes) :
    nextPrefixTurns (p.length + 1) p = some (nextPrefix p) ∧
      (nextPrefix p = none ↔ ∀ b ∈ p, b = 0xFF) ∧
      (∀ k, p <+: k ↔ (compare p k).isLE ∧
        (nextPrefix p = none ∨ ∃ e, nextPrefix p = some e ∧ compare k e = .lt)) ∧
      ∀ e, nextPrefix p = some e → (∀ k, p <+: k → compare k e = .lt) ∧
        ∀ x, (∀ k, p <+: k → compare k x = .lt) → (compare e x).isLE := by
  refine ⟨nextPrefixTurns_eq p, nextPrefix_eq_none_iff p, ?_, ?_⟩
  · intro k
    rw [isPrefix_iff_nextPrefix]
    refine and_congr_right' ?_
    cases nextPrefix p <;> simp
  · intro e he
    refine ⟨?_, fun x hx => nextPrefix_le_of_above he hx⟩
    intro k hk
    exact ((isPrefix_iff_nextPrefix p k).mp hk).2 e he

/-! ## The forward scan -/

/-- The first entries, as many as the limit allows. -/
def limited {α : Type} (limit : Option ℕ) (l : List α) : List α :=
  match limit with
  | some n => l.take n
  | none => l

/-- `end` as a bound. -/
def endBound : Option Bytes → Bound
  | some e => .excluded e
  | none => .unbounded

theorem limited_nil {α : Type} (limit : Option ℕ) : limited limit ([] : List α) = [] := by
  cases limit <;> simp [limited]

theorem limited_zero {α : Type} (l : List α) : limited (some 0) l = [] := rfl

theorem length_limited_le {α : Type} {limit : Option ℕ} {n : ℕ} (hn : n ∈ limit) (l : List α) :
    (limited limit l).length ≤ n := by
  rw [Option.mem_def.mp hn]
  exact List.length_take_le n l

theorem limited_sublist {α : Type} (limit : Option ℕ) (l : List α) :
    (limited limit l).Sublist l := by
  cases limit with
  | none => exact List.Sublist.refl l
  | some n => exact List.take_sublist n l

theorem atCap_some {cap : ℕ} {entries : List (Bytes × Bytes)} :
    atCap (some cap) entries = true ↔ cap ≤ entries.length := by
  simp [atCap]

theorem length_scanItem_le (filter : Option ScanFilter) (k v : Bytes) :
    (scanItem filter k v).length ≤ 1 := by
  unfold scanItem
  split
  · split <;> simp
  · simp

theorem scanItems_cons (filter : Option ScanFilter) (k v : Bytes)
    (items : List (Bytes × Bytes)) :
    scanItems filter ((k, v) :: items) = scanItem filter k v ++ scanItems filter items := rfl

/-- One more candidate, taken while the result is not full. -/
theorem limited_step {limit : Option ℕ} {entries : List (Bytes × Bytes)}
    (hcap : ¬ atCap limit entries) (filter : Option ScanFilter) (k v : Bytes)
    (rest : List (Bytes × Bytes)) :
    (entries ++ scanItem filter k v) ++
        limited (limit.map (· - (entries ++ scanItem filter k v).length)) rest =
      entries ++ limited (limit.map (· - entries.length)) (scanItem filter k v ++ rest) := by
  cases limit with
  | none => exact List.append_assoc _ _ _
  | some cap =>
      have hlen := length_scanItem_le filter k v
      have hroom : (scanItem filter k v).length ≤ cap - entries.length := by
        have := mt atCap_some.mpr hcap
        omega
      have hsub : cap - (entries ++ scanItem filter k v).length =
          cap - entries.length - (scanItem filter k v).length := by
        rw [List.length_append, Nat.sub_sub]
      show _ ++ List.take (cap - (entries ++ scanItem filter k v).length) rest =
        entries ++ List.take (cap - entries.length) (scanItem filter k v ++ rest)
      rw [List.take_append, List.take_of_length_le hroom, hsub, List.append_assoc]

/-- Is `k` before `end`? -/
def beforeEnd (endKey : Option Bytes) (e : Bytes × Bytes) : Bool :=
  (endBound endKey).below e.1

theorem beforeEnd_eq (endKey : Option Bytes) (k v : Bytes) :
    beforeEnd endKey (k, v) = !endKey.any (fun e => compare k e ≠ .lt) := by
  cases endKey with
  | none => rfl
  | some e =>
      show (compare k e == .lt) = !(decide (compare k e ≠ .lt))
      cases compare k e <;> rfl

/-- **The loop of a forward scan** adds the first accepted entries before `end`. -/
theorem scanLoop_ok {endKey : Option Bytes} {limit : Option ℕ} {filter : Option ScanFilter}
    {items : List (Bytes × Bytes)} {rtxn : Txn SmDb} {entries out : List (Bytes × Bytes)}
    (h : scanLoop endKey limit filter items rtxn entries = .ok out) :
    out = entries ++ limited (limit.map (· - entries.length))
      (scanItems filter (items.takeWhile (beforeEnd endKey))) := by
  induction items generalizing rtxn entries with
  | nil =>
      cases h
      rw [List.takeWhile_nil, scanItems, List.flatMap_nil, limited_nil, List.append_nil]
  | cons e items ih =>
      obtain ⟨k, v⟩ := e
      rw [scanLoop] at h
      by_cases hcap : atCap limit entries
      · rw [if_pos hcap] at h
        rw [← Except.ok.inj h]
        -- full: nothing more is taken
        cases limit with
        | none => cases hcap
        | some cap =>
            have hfull : cap - entries.length = 0 := Nat.sub_eq_zero_of_le (atCap_some.mp hcap)
            rw [Option.map_some, hfull, limited_zero, List.append_nil]
      · rw [if_neg hcap] at h
        obtain ⟨rtxn', -, h⟩ := bind_eq_ok.mp h
        by_cases hend : endKey.any (fun e => compare k e ≠ .lt)
        · rw [if_pos hend] at h
          rw [← Except.ok.inj h]
          have hstop : beforeEnd endKey (k, v) = false := by
            rw [beforeEnd_eq, hend]
            rfl
          rw [List.takeWhile_cons_of_neg (by simp [hstop]), scanItems, List.flatMap_nil,
            limited_nil, List.append_nil]
        · rw [if_neg hend] at h
          have hgo : beforeEnd endKey (k, v) = true := by
            rw [beforeEnd_eq, Bool.eq_false_iff.mpr hend]
            rfl
          rw [List.takeWhile_cons_of_pos hgo, scanItems_cons, ih h, limited_step hcap]

theorem scanLoop_noFaults (endKey : Option Bytes) (limit : Option ℕ)
    (filter : Option ScanFilter) (items : List (Bytes × Bytes)) {rtxn : Txn SmDb}
    (ht : rtxn.faults = Faults.none) (entries : List (Bytes × Bytes)) :
    ∃ out, scanLoop endKey limit filter items rtxn entries = .ok out := by
  induction items generalizing rtxn entries with
  | nil => exact ⟨entries, rfl⟩
  | cons e items ih =>
      obtain ⟨k, v⟩ := e
      rw [scanLoop]
      by_cases hcap : atCap limit entries
      · exact ⟨entries, if_pos hcap⟩
      · rw [if_neg hcap]
        by_cases hend : endKey.any (fun e => compare k e ≠ .lt)
        · exact ⟨entries, bind_eq_ok.mpr ⟨_, Txn.tick_noFaults ht, if_pos hend⟩⟩
        · have ht' : ({ rtxn with ops := rtxn.ops + 1 } : Txn SmDb).faults = Faults.none := ht
          obtain ⟨out, hout⟩ := ih ht' (entries ++ scanItem filter k v)
          exact ⟨out, bind_eq_ok.mpr ⟨_, Txn.tick_noFaults ht, (if_neg hend).trans hout⟩⟩

/-- In a sorted list, what comes before `end` comes first. -/
theorem takeWhile_beforeEnd (endKey : Option Bytes) {items : List (Bytes × Bytes)}
    (h : items.Pairwise (fun a b => compare a.1 b.1 = .lt)) :
    items.takeWhile (beforeEnd endKey) = items.filter (beforeEnd endKey) := by
  induction items with
  | nil => rfl
  | cons e items ih =>
      obtain ⟨hlt, hitems⟩ := List.pairwise_cons.mp h
      by_cases hend : beforeEnd endKey e
      · rw [List.takeWhile_cons_of_pos hend, List.filter_cons_of_pos hend, ih hitems]
      · rw [List.takeWhile_cons_of_neg hend, List.filter_cons_of_neg hend]
        symm
        rw [List.filter_eq_nil_iff]
        intro e' he' hbefore
        cases endKey with
        | none => exact hend rfl
        | some stop =>
            have h₁ : compare e'.1 stop = .lt := beq_iff_eq.mp hbefore
            exact hend (beq_iff_eq.mpr (Std.TransCmp.lt_trans (hlt e' he') h₁))

/-- What a scan from `start` to `end` meets. -/
theorem range_takeWhile (db : Database) (start : Bound) (endKey : Option Bytes) :
    (db.range start .unbounded).takeWhile (beforeEnd endKey) =
      db.range start (endBound endKey) := by
  rw [takeWhile_beforeEnd endKey (db.range_sorted _ _), Database.range, List.filter_filter]
  refine List.filter_congr (fun e _ => ?_)
  show (beforeEnd endKey e && (start.above e.1 && true)) = (start.above e.1 && beforeEnd endKey e)
  rw [Bool.and_true, Bool.and_comm]

/-- **A forward scan that returns** has the first accepted entries of its range. -/
theorem scanRangeCore_ok {flt : Faults} {sm : LmdbStateMachine} {start : Bound}
    {endKey : Option Bytes} {limit : Option ℕ} {filter : Option ScanFilter} {r : ScanResult}
    (h : sm.scanRangeCore flt start endKey limit filter = .ok r) :
    r = ⟨limited limit (scanItems filter (sm.kv.range start (endBound endKey))),
      sm.lastAppliedIndex⟩ := by
  obtain ⟨t₀, h₀, h⟩ := bind_eq_ok.mp (mapError_eq_ok.mp h)
  obtain ⟨⟨t₁, items⟩, h₁, h⟩ := bind_eq_ok.mp h
  obtain ⟨entries, h₂, h⟩ := bind_eq_ok.mp h
  obtain ⟨e₀, -⟩ := Txn.begin_ok h₀
  obtain ⟨-, -, hitems⟩ := Txn.range_ok h₁
  cases h
  have hout := scanLoop_ok h₂
  rw [hitems, range_takeWhile, e₀] at hout
  rw [hout]
  cases limit <;> rfl

theorem range_noFaults {t : Txn SmDb} {lo hi : Bound} (ht : t.faults = Faults.none)
    (hlo : lo ≠ .included []) (hlo' : lo ≠ .excluded []) :
    t.range .kvDb lo hi = .ok ({ t with ops := t.ops + 1 }, (t.env .kvDb).range lo hi) := by
  simp [Txn.range, Txn.tick_noFaults ht, bind, Except.bind, hlo, hlo']

theorem scanRangeCore_noFaults (sm : LmdbStateMachine) {start : Bound}
    (hs : start ≠ .included []) (hs' : start ≠ .excluded []) (endKey : Option Bytes)
    (limit : Option ℕ) (filter : Option ScanFilter) :
    ∃ r, sm.scanRangeCore Faults.none start endKey limit filter = .ok r := by
  have hrange : (⟨Faults.none, 1, sm.env⟩ : Txn SmDb).range .kvDb start .unbounded =
      .ok (⟨Faults.none, 2, sm.env⟩, (sm.env .kvDb).range start .unbounded) :=
    range_noFaults rfl hs hs'
  have hflt : (⟨Faults.none, 2, sm.env⟩ : Txn SmDb).faults = Faults.none := rfl
  obtain ⟨out, hloop⟩ := scanLoop_noFaults endKey limit filter
    ((sm.env .kvDb).range start .unbounded) hflt []
  refine ⟨⟨out, sm.lastAppliedIndex⟩, mapError_eq_ok.mpr ?_⟩
  refine bind_eq_ok.mpr ⟨_, Txn.begin_noFaults sm.env, ?_⟩
  refine bind_eq_ok.mpr ⟨_, hrange, ?_⟩
  exact bind_eq_ok.mpr ⟨out, hloop, rfl⟩

/-! ## Prefix scans -/

/-- Does `k` start with `pfx` and come after `after`? -/
def inPrefix (pfx : Bytes) (after : Option Bytes) (k : Bytes) : Bool :=
  pfx.isPrefixOf k && after.all (fun a => compare a k == .lt)

/-- The pairs of the prefix beyond `after`. -/
def prefixItems (db : Database) (pfx : Bytes) (after : Option Bytes) : List (Bytes × Bytes) :=
  db.toList.filter (fun e => inPrefix pfx after e.1)

theorem inPrefix_iff {pfx : Bytes} {after : Option Bytes} {k : Bytes} :
    inPrefix pfx after k = true ↔ pfx <+: k ∧ ∀ a ∈ after, compare a k = .lt := by
  have hafter : after.all (fun a => compare a k == .lt) = true ↔
      ∀ a ∈ after, compare a k = .lt := by
    cases after <;> simp
  rw [inPrefix, Bool.and_eq_true, hafter, List.isPrefixOf_iff_prefix]

theorem mem_prefixItems {db : Database} {pfx : Bytes} {after : Option Bytes} {k v : Bytes} :
    (k, v) ∈ prefixItems db pfx after ↔
      db.get k = some v ∧ pfx <+: k ∧ ∀ a ∈ after, compare a k = .lt := by
  rw [prefixItems, List.mem_filter, Database.mem_toList, inPrefix_iff]

/-- Which keys a prefix scan walks over. -/
theorem inRange_prefixStart {pfx : Bytes} {after : Option Bytes} {k : Bytes} :
    inRange (prefixStart pfx after) (endBound (nextPrefix pfx)) k = true ↔
      (∀ a ∈ after, compare a k = .lt) ∧ (after = none → (compare pfx k).isLE) ∧
        ∀ e ∈ nextPrefix pfx, compare k e = .lt := by
  have hend : (endBound (nextPrefix pfx)).below k = true ↔
      ∀ e ∈ nextPrefix pfx, compare k e = .lt := by
    cases nextPrefix pfx <;> simp [endBound, Bound.below]
  rw [inRange, Bool.and_eq_true, hend, ← and_assoc]
  refine and_congr_left' ?_
  cases after <;> simp [prefixStart, Bound.above]

/-- From the prefix on, the range of the scan is the prefix. -/
theorem inRange_prefixStart_of_ge {pfx : Bytes} {after : Option Bytes} {k : Bytes}
    (hk : (compare pfx k).isLE) :
    inRange (prefixStart pfx after) (endBound (nextPrefix pfx)) k = inPrefix pfx after k := by
  rw [Bool.eq_iff_iff, inRange_prefixStart, inPrefix_iff, isPrefix_iff_nextPrefix]
  constructor
  · rintro ⟨hafter, -, hend⟩
    exact ⟨⟨hk, hend⟩, hafter⟩
  · rintro ⟨⟨-, hend⟩, hafter⟩
    exact ⟨hafter, fun _ => hk, hend⟩

/-- Only what the filter rejects may differ. -/
theorem scanItems_filter_congr (filter : Option ScanFilter) (p q : Bytes × Bytes → Bool)
    {items : List (Bytes × Bytes)}
    (h : ∀ e ∈ items, p e = q e ∨ scanItem filter e.1 e.2 = []) :
    scanItems filter (items.filter p) = scanItems filter (items.filter q) := by
  induction items with
  | nil => rfl
  | cons e items ih =>
      have hrest := ih (fun e' he' => h e' (List.mem_cons_of_mem _ he'))
      have hcons : ∀ p : Bytes × Bytes → Bool, scanItems filter ((e :: items).filter p) =
          (if p e then scanItem filter e.1 e.2 else []) ++ scanItems filter (items.filter p) := by
        intro p
        rw [List.filter_cons]
        split <;> rfl
      rw [hcons, hcons, hrest]
      rcases h e List.mem_cons_self with hpq | hnil
      · rw [hpq]
      · rw [hnil, ite_self, ite_self]

theorem mem_scanItems_filter {filter : Option ScanFilter} {items : List (Bytes × Bytes)}
    {e : Bytes × Bytes} (h : e ∈ scanItems filter items) : ∃ v, (e.1, v) ∈ items := by
  obtain ⟨⟨k, v⟩, hmem, he⟩ := List.mem_flatMap.mp h
  rw [scanItem_key he]
  exact ⟨v, hmem⟩

/-- A condition on the keys may be asked before or after the filter. -/
theorem scanItems_filter_key (filter : Option ScanFilter) (p : Bytes → Bool)
    (items : List (Bytes × Bytes)) :
    scanItems filter (items.filter (fun e => p e.1)) =
      (scanItems filter items).filter (fun e => p e.1) := by
  induction items with
  | nil => rfl
  | cons e items ih =>
      obtain ⟨k, v⟩ := e
      rw [scanItems_cons, List.filter_append, ← ih]
      by_cases hp : p k
      · have hitem : (scanItem filter k v).filter (fun e => p e.1) = scanItem filter k v := by
          rw [List.filter_eq_self]
          intro e he
          rw [scanItem_key he]
          exact hp
        rw [List.filter_cons, if_pos hp, scanItems_cons, hitem]
      · have hitem : (scanItem filter k v).filter (fun e => p e.1) = [] := by
          rw [List.filter_eq_nil_iff]
          intro e he
          rw [scanItem_key he]
          exact hp
        rw [List.filter_cons, if_neg hp, hitem, List.nil_append]

/-- What a prefix scan is for: the first accepted entries of its prefix, beyond `after`. -/
structure ScansPrefix (db : Database) (pfx : Bytes) (after : Option Bytes) (limit : Option ℕ)
    (filter : Option ScanFilter) (entries : List (Bytes × Bytes)) : Prop where
  first : entries = limited limit (scanItems filter (prefixItems db pfx after))
  increasing : entries.Pairwise (fun a b => compare a.1 b.1 = .lt)
  inside : ∀ e ∈ entries, pfx <+: e.1

/-- The first accepted entries are in order and inside the prefix. -/
theorem scansPrefix_iff {db : Database} {pfx : Bytes} {after : Option Bytes} {limit : Option ℕ}
    {filter : Option ScanFilter} {entries : List (Bytes × Bytes)} :
    ScansPrefix db pfx after limit filter entries ↔
      entries = limited limit (scanItems filter (prefixItems db pfx after)) := by
  refine ⟨ScansPrefix.first, ?_⟩
  rintro rfl
  refine ⟨rfl, ?_, ?_⟩
  · have hsorted := scanItems_sorted filter (db.toList_sorted.filter
      (fun e => inPrefix pfx after e.1))
    exact hsorted.sublist (limited_sublist limit _)
  · intro e he
    obtain ⟨v, hv⟩ := mem_scanItems_filter ((limited_sublist limit _).subset he)
    exact (mem_prefixItems.mp hv).2.1

/-- The filter accepts nothing between `after` and the prefix. -/
def NothingBefore (db : Database) (pfx : Bytes) (after : Option Bytes)
    (filter : Option ScanFilter) : Prop :=
  ∀ a ∈ after, ∀ k v, db.get k = some v → compare a k = .lt → compare k pfx = .lt →
    scanItem filter k v = []

/-- From the prefix on, or from a key beyond it, there is nothing before the prefix. -/
theorem nothingBefore_of_ge {db : Database} {pfx : Bytes} {after : Option Bytes}
    {filter : Option ScanFilter} (h : ∀ a ∈ after, (compare pfx a).isLE) :
    NothingBefore db pfx after filter := by
  intro a ha k v _ hak hkp
  have hlt : compare a pfx = .lt := Std.TransCmp.lt_trans hak hkp
  exact absurd (h a ha) (Std.OrientedCmp.not_isLE_of_lt hlt)

/-- Then the range of the scan is the prefix, as far as accepted entries go. -/
theorem scanItems_inPrefix {db : Database} {pfx : Bytes} {after : Option Bytes}
    {filter : Option ScanFilter} (h : NothingBefore db pfx after filter) :
    scanItems filter (db.range (prefixStart pfx after) (endBound (nextPrefix pfx))) =
      scanItems filter (prefixItems db pfx after) := by
  refine scanItems_filter_congr filter _ _ ?_
  rintro ⟨k, v⟩ hmem
  by_cases hk : (compare pfx k).isLE
  · exact Or.inl (inRange_prefixStart_of_ge hk)
  · by_cases hr : inRange (prefixStart pfx after) (endBound (nextPrefix pfx)) k = true
    · -- met before the prefix: then it is `after` that lets it in
      obtain ⟨hafter, hnone, -⟩ := inRange_prefixStart.mp hr
      cases after with
      | none => exact absurd (hnone rfl) hk
      | some a =>
          have hlt : compare k pfx = .lt := Std.OrientedCmp.lt_of_not_isLE hk
          exact Or.inr (h a rfl k v (Database.mem_toList.mp hmem) (hafter a rfl) hlt)
    · have hp : ¬ inPrefix pfx after k = true := fun hp =>
        hk (isLE_compare_of_isPrefix (inPrefix_iff.mp hp).1)
      exact Or.inl ((Bool.eq_false_iff.mpr hr).trans (Bool.eq_false_iff.mpr hp).symm)

theorem prefixStart_ne {pfx : Bytes} (hp : pfx ≠ []) {after : Option Bytes}
    (ha : after ≠ some []) :
    prefixStart pfx after ≠ .included [] ∧ prefixStart pfx after ≠ .excluded [] := by
  cases after with
  | none => exact ⟨fun h => hp (Bound.included.inj h), nofun⟩
  | some a => exact ⟨nofun, fun h => ha (congrArg some (Bound.excluded.inj h))⟩

theorem scanPrefixBounded_ok {flt : Faults} {sm : LmdbStateMachine} {pfx : Bytes}
    (hp : pfx ≠ []) {after : Option Bytes} {limit : Option ℕ} {filter : Option ScanFilter}
    {r : ScanResult} (h : sm.scanPrefixBounded flt pfx after limit filter = .ok r) :
    r = ⟨limited limit (scanItems filter
      (sm.kv.range (prefixStart pfx after) (endBound (nextPrefix pfx)))), sm.lastAppliedIndex⟩ := by
  rw [LmdbStateMachine.scanPrefixBounded, if_neg hp] at h
  exact scanRangeCore_ok h

theorem scanPrefixBounded_noFaults (sm : LmdbStateMachine) {pfx : Bytes} (hp : pfx ≠ [])
    {after : Option Bytes} (ha : after ≠ some []) (limit : Option ℕ)
    (filter : Option ScanFilter) :
    ∃ r, sm.scanPrefixBounded Faults.none pfx after limit filter = .ok r := by
  obtain ⟨hincl, hexcl⟩ := prefixStart_ne hp ha
  rw [LmdbStateMachine.scanPrefixBounded, if_neg hp]
  exact scanRangeCore_noFaults sm hincl hexcl _ limit filter

/-- What is met before the prefix is in the range of the scan. -/
theorem mem_range_before {db : Database} {pfx a k v : Bytes} (hget : db.get k = some v)
    (hak : compare a k = .lt) (hkp : compare k pfx = .lt) :
    (k, v) ∈ db.range (prefixStart pfx (some a)) (endBound (nextPrefix pfx)) := by
  refine Database.mem_range.mpr ⟨hget, inRange_prefixStart.mpr ⟨?_, nofun, ?_⟩⟩
  · rintro a' ⟨⟩
    exact hak
  · intro stop hstop
    have hstop' := ((isPrefix_iff_nextPrefix pfx pfx).mp List.prefix_rfl).2 stop hstop
    exact Std.TransCmp.lt_trans hkp hstop'

/-- The first key of a sorted list is before what any of its keys is before. -/
theorem first_lt {x e : Bytes × Bytes} {xs : List (Bytes × Bytes)} {p : Bytes}
    (hsorted : (x :: xs).Pairwise (fun a b => compare a.1 b.1 = .lt)) (he : e ∈ x :: xs)
    (hlt : compare e.1 p = .lt) : compare x.1 p = .lt := by
  rcases List.mem_cons.mp he with rfl | hxs
  · exact hlt
  · exact Std.TransCmp.lt_trans ((List.pairwise_cons.mp hsorted).1 e hxs) hlt

theorem first_mem_limited {limit : Option ℕ} (hlimit : limit ≠ some 0) {α : Type} (x : α)
    (xs : List α) : x ∈ limited limit (x :: xs) := by
  cases limit with
  | none => exact List.mem_cons_self
  | some n =>
      cases n with
      | zero => exact absurd rfl hlimit
      | succ n => exact List.mem_cons_self

/-- The first accepted key of the range is the first of the prefix only if none comes
before the prefix. -/
theorem nothingBefore_of_limited_eq {db : Database} {pfx : Bytes} {after : Option Bytes}
    {filter : Option ScanFilter} {limit : Option ℕ} (hlimit : limit ≠ some 0)
    (h : limited limit (scanItems filter
        (db.range (prefixStart pfx after) (endBound (nextPrefix pfx)))) =
      limited limit (scanItems filter (prefixItems db pfx after))) :
    NothingBefore db pfx after filter := by
  intro a ha k v hget hak hkp
  rw [List.eq_nil_iff_forall_not_mem]
  intro e he
  rw [Option.mem_def.mp ha] at h
  have hsorted := scanItems_sorted filter
    (db.range_sorted (prefixStart pfx (some a)) (endBound (nextPrefix pfx)))
  have hmem : e ∈ scanItems filter
      (db.range (prefixStart pfx (some a)) (endBound (nextPrefix pfx))) :=
    List.mem_flatMap.mpr ⟨(k, v), mem_range_before hget hak hkp, he⟩
  cases hitems : scanItems filter
      (db.range (prefixStart pfx (some a)) (endBound (nextPrefix pfx))) with
  | nil =>
      rw [hitems] at hmem
      cases hmem
  | cons x xs =>
      rw [hitems] at hmem hsorted h
      -- the smallest accepted key of the range is returned, and is at most `k`
      have hx : compare x.1 pfx = .lt := by
        refine first_lt hsorted hmem ?_
        rw [scanItem_key he]
        exact hkp
      have hfirst := first_mem_limited hlimit x xs
      rw [h] at hfirst
      obtain ⟨v', hv'⟩ := mem_scanItems_filter ((limited_sublist limit _).subset hfirst)
      exact absurd (isLE_compare_of_isPrefix (mem_prefixItems.mp hv').2.1)
        (Std.OrientedCmp.not_isLE_of_lt hx)

/-- **A prefix scan stays inside its prefix exactly when nothing that its filter accepts
lies between `after` and the prefix** (or its limit is 0): the lower bound of the range
is `after` alone. -/
theorem scanPrefixBounded_inside_iff (sm : LmdbStateMachine) {pfx : Bytes} (hp : pfx ≠ [])
    {after : Option Bytes} (ha : after ≠ some []) (limit : Option ℕ)
    (filter : Option ScanFilter) :
    (∃ r, sm.scanPrefixBounded Faults.none pfx after limit filter = .ok r) ∧
      ∀ flt r, sm.scanPrefixBounded flt pfx after limit filter = .ok r →
        (ScansPrefix sm.kv pfx after limit filter r.entries ↔
          limit = some 0 ∨ NothingBefore sm.kv pfx after filter) := by
  refine ⟨scanPrefixBounded_noFaults sm hp ha limit filter, ?_⟩
  intro flt r hr
  rw [scanPrefixBounded_ok hp hr, scansPrefix_iff]
  constructor
  · intro heq
    by_cases hlimit : limit = some 0
    · exact Or.inl hlimit
    · exact Or.inr (nothingBefore_of_limited_eq hlimit heq)
  · rintro (rfl | hnothing)
    · rfl
    · rw [scanItems_inPrefix hnothing]

/-- A store with the one key `a`, as a chunk leaves it. -/
def oneKeyStore : LmdbStateMachine :=
  freshStateMachine.after (applyChunk Faults.none freshStateMachine [⟨1, 1, .insert [97] [0, 1] none⟩])

theorem oneKeyStore_get : oneKeyStore.kv.get [97] = some [0, 1] := by decide

/-- On that store, a scan of the prefix `b` and one that would begin below it. -/
theorem scanPrefixBounded_inside_at :
    (∃ r, oneKeyStore.scanPrefixBounded Faults.none [98] (some [96]) (some 2) none = .ok r) ∧
      ∀ flt r, oneKeyStore.scanPrefixBounded flt [98] (some [96]) (some 2) none = .ok r →
        (ScansPrefix oneKeyStore.kv [98] (some [96]) (some 2) none r.entries ↔
          some 2 = some 0 ∨ NothingBefore oneKeyStore.kv [98] (some [96]) none) :=
  scanPrefixBounded_inside_iff oneKeyStore (by decide) (by decide) (some 2) none

/-- A scan of the prefix `b` after a key below `a` returns `a`. -/
theorem scanPrefixBounded_leaks :
    ∃ r, oneKeyStore.scanPrefixBounded Faults.none [98] (some [96]) none none = .ok r ∧
      ([97], [0, 1]) ∈ r.entries ∧
      ¬ ScansPrefix oneKeyStore.kv [98] (some [96]) none none r.entries := by
  obtain ⟨r, hr⟩ := scanPrefixBounded_noFaults oneKeyStore (by decide : ([98] : Bytes) ≠ [])
    (by decide : (some [96] : Option Bytes) ≠ some []) none none
  have hmem : ([97], [0, 1]) ∈ r.entries := by
    rw [scanPrefixBounded_ok (by decide) hr]
    refine List.mem_flatMap.mpr ⟨([97], [0, 1]), ?_, List.mem_singleton_self _⟩
    exact Database.mem_range.mpr ⟨oneKeyStore_get, by decide⟩
  refine ⟨r, hr, hmem, ?_⟩
  intro h
  exact absurd (h.inside _ hmem) (by decide)

/-! ## Reverse scans -/

/-- The window of a reverse scan over what it has accepted so far: a limit of 0 keeps
one entry. -/
def lastAccepted (limit : Option ℕ) (l : List (Bytes × Bytes)) : List (Bytes × Bytes) :=
  match limit with
  | some cap => l.rtake (max cap 1)
  | none => l

theorem scanItem_eq (filter : Option ScanFilter) (k v : Bytes) :
    scanItem filter k v = (scanCandidate filter v).toList.map (fun payload => (k, payload)) := by
  cases filter with
  | none => rfl
  | some f =>
      rw [scanItem, scanCandidate]
      cases f v <;> rfl

/-- **One accepted entry** moves the window by one. -/
theorem pushWindow_lastAccepted (limit : Option ℕ) (l : List (Bytes × Bytes))
    (e : Bytes × Bytes) :
    pushWindow limit (lastAccepted limit l) e = lastAccepted limit (l ++ [e]) := by
  cases limit with
  | none => rfl
  | some cap =>
      obtain ⟨n, hn⟩ : ∃ n, max cap 1 = n + 1 := ⟨max cap 1 - 1, by omega⟩
      have hkept : (if atCap (some cap) (l.rtake (n + 1)) then (l.rtake (n + 1)).tail
          else l.rtake (n + 1)) = l.rtake n := by
        have hlen : (l.rtake (n + 1)).length = min (n + 1) l.length := by
          rw [List.rtake, List.length_drop]
          omega
        by_cases hcap : atCap (some cap) (l.rtake (n + 1))
        · have hfull := atCap_some.mp hcap
          rw [if_pos hcap, List.rtake, List.rtake, List.tail_drop]
          by_cases hl : l.length = 0
          · -- `pop_front` of an empty window: only a limit of 0 is full this early
            rw [List.eq_nil_of_length_eq_zero hl, List.drop_nil, List.drop_nil]
          · congr 1
            omega
        · have hroom := mt atCap_some.mpr hcap
          rw [if_neg hcap, List.rtake, List.rtake]
          congr 1
          omega
      rw [pushWindow, lastAccepted, lastAccepted, hn, hkept, List.rtake_concat_succ]

/-- **The loop of a reverse scan** keeps the last entries it accepts. -/
theorem windowLoop_ok {limit : Option ℕ} {filter : Option ScanFilter}
    {items : List (Bytes × Bytes)} {rtxn : Txn SmDb} {seen out : List (Bytes × Bytes)}
    (h : windowLoop limit filter items rtxn (lastAccepted limit seen) = .ok out) :
    out = lastAccepted limit (seen ++ scanItems filter items) := by
  induction items generalizing rtxn seen with
  | nil =>
      rw [← Except.ok.inj h, scanItems, List.flatMap_nil, List.append_nil]
  | cons e items ih =>
      obtain ⟨k, v⟩ := e
      obtain ⟨rtxn', -, h⟩ := bind_eq_ok.mp h
      rw [scanItems_cons, scanItem_eq]
      cases hc : scanCandidate filter v with
      | none =>
          rw [hc] at h
          exact ih h
      | some payload =>
          rw [hc] at h
          have h' : windowLoop limit filter items rtxn'
              (pushWindow limit (lastAccepted limit seen) (k, payload)) = .ok out := h
          rw [pushWindow_lastAccepted] at h'
          rw [ih h', List.append_assoc]
          rfl

theorem windowLoop_noFaults (limit : Option ℕ) (filter : Option ScanFilter)
    (items : List (Bytes × Bytes)) {rtxn : Txn SmDb} (ht : rtxn.faults = Faults.none)
    (window : List (Bytes × Bytes)) :
    ∃ out, windowLoop limit filter items rtxn window = .ok out := by
  induction items generalizing rtxn window with
  | nil => exact ⟨window, rfl⟩
  | cons e items ih =>
      obtain ⟨k, v⟩ := e
      have ht' : ({ rtxn with ops := rtxn.ops + 1 } : Txn SmDb).faults = Faults.none := ht
      cases hc : scanCandidate filter v with
      | none =>
          obtain ⟨out, hout⟩ := ih ht' window
          refine ⟨out, bind_eq_ok.mpr ⟨_, Txn.tick_noFaults ht, ?_⟩⟩
          rw [hc]
          exact hout
      | some payload =>
          obtain ⟨out, hout⟩ := ih ht' (pushWindow limit window (k, payload))
          refine ⟨out, bind_eq_ok.mpr ⟨_, Txn.tick_noFaults ht, ?_⟩⟩
          rw [hc]
          exact hout

/-- The accepted entries of `[start, stop)`, in key order. -/
def acceptedIn (db : Database) (start stop : Bytes) (filter : Option ScanFilter) :
    List (Bytes × Bytes) :=
  scanItems filter (db.range (.included start) (.excluded stop))

/-- **A reverse scan that returns** has the last accepted entries of its range, at least
one if there is one. -/
theorem scanRangeRev_ok {flt : Faults} {sm : LmdbStateMachine} {start stop : Bytes}
    (hs : start ≠ []) {limit : Option ℕ} {filter : Option ScanFilter} {r : ScanResult}
    (h : sm.scanRangeRev flt start stop limit filter = .ok r) :
    r = ⟨limited (limit.map (max · 1)) (acceptedIn sm.kv start stop filter).reverse,
      sm.lastAppliedIndex⟩ := by
  rw [LmdbStateMachine.scanRangeRev, if_neg hs] at h
  obtain ⟨t₀, h₀, h⟩ := bind_eq_ok.mp (mapError_eq_ok.mp h)
  obtain ⟨⟨t₁, items⟩, h₁, h⟩ := bind_eq_ok.mp h
  obtain ⟨window, h₂, h⟩ := bind_eq_ok.mp h
  obtain ⟨e₀, -⟩ := Txn.begin_ok h₀
  obtain ⟨-, -, hitems⟩ := Txn.range_ok h₁
  cases h
  have hempty : lastAccepted limit [] = [] := by
    cases limit with
    | none => rfl
    | some cap => exact List.rtake_nil _
  rw [hitems, e₀, ← hempty] at h₂
  have hrev : ∀ l, (lastAccepted limit l).reverse = limited (limit.map (max · 1)) l.reverse := by
    intro l
    cases limit with
    | none => rfl
    | some cap =>
        show (l.rtake (max cap 1)).reverse = l.reverse.take (max cap 1)
        rw [List.rtake_eq_reverse_take_reverse, List.reverse_reverse]
  rw [windowLoop_ok h₂, List.nil_append, hrev]
  rfl

theorem scanRangeRev_noFaults (sm : LmdbStateMachine) {start : Bytes} (hs : start ≠ [])
    (stop : Bytes) (limit : Option ℕ) (filter : Option ScanFilter) :
    ∃ r, sm.scanRangeRev Faults.none start stop limit filter = .ok r := by
  have hrange : (⟨Faults.none, 1, sm.env⟩ : Txn SmDb).range .kvDb (.included start)
      (.excluded stop) = .ok (⟨Faults.none, 2, sm.env⟩,
        (sm.env .kvDb).range (.included start) (.excluded stop)) :=
    range_noFaults rfl (fun h => hs (Bound.included.inj h)) nofun
  have hflt : (⟨Faults.none, 2, sm.env⟩ : Txn SmDb).faults = Faults.none := rfl
  obtain ⟨out, hloop⟩ := windowLoop_noFaults limit filter
    ((sm.env .kvDb).range (.included start) (.excluded stop)) hflt []
  refine ⟨⟨out.reverse, sm.lastAppliedIndex⟩, ?_⟩
  rw [LmdbStateMachine.scanRangeRev, if_neg hs]
  refine mapError_eq_ok.mpr (bind_eq_ok.mpr ⟨_, Txn.begin_noFaults sm.env, ?_⟩)
  refine bind_eq_ok.mpr ⟨_, hrange, ?_⟩
  exact bind_eq_ok.mpr ⟨out, hloop, rfl⟩

/-- What a reverse scan is for: the reverse of the forward scan, then the limit. -/
structure ReversesForward (sm : LmdbStateMachine) (start stop : Bytes) (limit : Option ℕ)
    (filter : Option ScanFilter) (entries : List (Bytes × Bytes)) : Prop where
  forward : ∃ r, sm.scanRange Faults.none start (some stop) none filter = .ok r ∧
    entries = limited limit r.entries.reverse
  largest : entries = limited limit (acceptedIn sm.kv start stop filter).reverse
  decreasing : entries.Pairwise (fun a b => compare b.1 a.1 = .lt)
  atMost : ∀ n ∈ limit, entries.length ≤ n

/-- The forward scan has the accepted entries of the range. -/
theorem scanRange_noFaults (sm : LmdbStateMachine) {start : Bytes} (hs : start ≠ [])
    (stop : Bytes) (filter : Option ScanFilter) :
    sm.scanRange Faults.none start (some stop) none filter =
      .ok ⟨acceptedIn sm.kv start stop filter, sm.lastAppliedIndex⟩ := by
  have hstart : Bound.included start ≠ .included [] := fun h => hs (Bound.included.inj h)
  obtain ⟨r, hr⟩ := scanRangeCore_noFaults sm hstart nofun (some stop) none filter
  rw [LmdbStateMachine.scanRange, if_neg hs, hr, scanRangeCore_ok hr]
  rfl

theorem reversesForward_iff {sm : LmdbStateMachine} {start stop : Bytes} (hs : start ≠ [])
    {limit : Option ℕ} {filter : Option ScanFilter} {entries : List (Bytes × Bytes)} :
    ReversesForward sm start stop limit filter entries ↔
      entries = limited limit (acceptedIn sm.kv start stop filter).reverse := by
  refine ⟨ReversesForward.largest, ?_⟩
  rintro rfl
  refine ⟨⟨_, scanRange_noFaults sm hs stop filter, rfl⟩, rfl, ?_, ?_⟩
  · have hsorted := scanItems_sorted filter (sm.kv.range_sorted (.included start) (.excluded stop))
    exact (List.pairwise_reverse.mpr hsorted).sublist (limited_sublist limit _)
  · intro n hn
    exact length_limited_le hn _

/-- The filter accepts nothing in `[start, stop)`. -/
def NothingAccepted (db : Database) (start stop : Bytes) (filter : Option ScanFilter) : Prop :=
  ∀ k v, db.get k = some v → (compare start k).isLE → compare k stop = .lt →
    scanItem filter k v = []

theorem acceptedIn_eq_nil_iff {db : Database} {start stop : Bytes}
    {filter : Option ScanFilter} :
    acceptedIn db start stop filter = [] ↔ NothingAccepted db start stop filter := by
  have hmem : ∀ k v, (k, v) ∈ db.range (.included start) (.excluded stop) ↔
      db.get k = some v ∧ (compare start k).isLE ∧ compare k stop = .lt := by
    intro k v
    rw [Database.mem_range, inRange, Bool.and_eq_true]
    simp only [Bound.above, Bound.below, beq_iff_eq]
  rw [acceptedIn, scanItems, List.flatMap_eq_nil_iff]
  constructor
  · intro h k v hget hlo hhi
    exact h (k, v) ((hmem k v).mpr ⟨hget, hlo, hhi⟩)
  · rintro h ⟨k, v⟩ he
    obtain ⟨hget, hlo, hhi⟩ := (hmem k v).mp he
    exact h k v hget hlo hhi

/-- **A reverse scan is the reversed forward scan, then limited, exactly when its limit is
not 0**, or it has nothing to return: a full window of size 0 gives up no entry for the
one it takes in. -/
theorem scanRangeRev_reverses_iff (sm : LmdbStateMachine) {start : Bytes} (hs : start ≠ [])
    (stop : Bytes) (limit : Option ℕ) (filter : Option ScanFilter) :
    (∃ r, sm.scanRangeRev Faults.none start stop limit filter = .ok r) ∧
      ∀ flt r, sm.scanRangeRev flt start stop limit filter = .ok r →
        (ReversesForward sm start stop limit filter r.entries ↔
          limit ≠ some 0 ∨ NothingAccepted sm.kv start stop filter) := by
  refine ⟨scanRangeRev_noFaults sm hs stop limit filter, ?_⟩
  intro flt r hr
  rw [scanRangeRev_ok hs hr, reversesForward_iff hs, ← acceptedIn_eq_nil_iff]
  match limit with
  | none => exact iff_of_true rfl (Or.inl nofun)
  | some (n + 1) =>
      have hmax : max (n + 1) 1 = n + 1 := by omega
      refine iff_of_true ?_ (Or.inl (by simp))
      rw [Option.map_some, hmax]
  | some 0 =>
      -- one entry is kept where none was asked for
      rw [or_iff_right (fun h => h rfl), Option.map_some, limited_zero]
      show (acceptedIn sm.kv start stop filter).reverse.take 1 = [] ↔ _
      rw [List.take_eq_nil_iff, List.reverse_eq_nil_iff]
      exact or_iff_right (by decide)

/-- The one key of a store, asked for with a limit of 1. -/
theorem scanRangeRev_reverses_at :
    (∃ r, oneKeyStore.scanRangeRev Faults.none [97] [98] (some 1) none = .ok r) ∧
      ∀ flt r, oneKeyStore.scanRangeRev flt [97] [98] (some 1) none = .ok r →
        (ReversesForward oneKeyStore [97] [98] (some 1) none r.entries ↔
          some 1 ≠ some 0 ∨ NothingAccepted oneKeyStore.kv [97] [98] none) :=
  scanRangeRev_reverses_iff oneKeyStore (by decide) [98] (some 1) none

/-- With a limit of 0 the same scan returns the key. -/
theorem scanRangeRev_exceeds_limit :
    ∃ r, oneKeyStore.scanRangeRev Faults.none [97] [98] (some 0) none = .ok r ∧
      r.entries ≠ [] ∧ ¬ ReversesForward oneKeyStore [97] [98] (some 0) none r.entries := by
  have hs : ([97] : Bytes) ≠ [] := by decide
  obtain ⟨r, hr⟩ := scanRangeRev_noFaults oneKeyStore hs [98] (some 0) none
  have hsome : acceptedIn oneKeyStore.kv [97] [98] none ≠ [] := by
    intro h
    exact absurd (acceptedIn_eq_nil_iff.mp h [97] [0, 1] oneKeyStore_get (by decide) (by decide))
      (by decide)
  have hne : r.entries ≠ [] := by
    rw [scanRangeRev_ok hs hr]
    show (acceptedIn oneKeyStore.kv [97] [98] none).reverse.take 1 ≠ []
    rw [ne_eq, List.take_eq_nil_iff, List.reverse_eq_nil_iff]
    exact fun h => h.elim (by decide) hsome
  refine ⟨r, hr, hne, ?_⟩
  intro h
  exact hne (List.eq_nil_of_length_eq_zero (Nat.le_zero.mp (h.atMost 0 rfl)))

end DLmdb
