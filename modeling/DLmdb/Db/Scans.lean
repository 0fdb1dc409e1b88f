import DLmdb.Db.Reads
import DLmdb.Framework.Paging
import DLmdb.StateMachine.Scans

/-!
# Scans of `DLmdb`

The bounded scans decode what the state machine finds against the clock. A client that
wants all of a large prefix reads it in pages, each from beyond the last key of the one
before, while writes, deletions, expiries and local removals go on in between.
-/

namespace DLmdb

open Framework Lmdb

/-! ## The code -/

namespace Db

def scanPrefix (flt : Faults) (sm : LmdbStateMachine) (pfx : Bytes) (after : Option Bytes)
    (limit : Option ℕ) (now : UInt64) : Except Error ScanResult :=
  (sm.scanPrefixBounded flt pfx after limit (some (decodeForScan now))).mapError .engine

def scanRange (flt : Faults) (sm : LmdbStateMachine) (start stop : Bytes) (limit : Option ℕ)
    (now : UInt64) : Except Error ScanResult :=
  (sm.scanRange flt start (some stop) limit (some (decodeForScan now))).mapError .engine

def scanRangeRev (flt : Faults) (sm : LmdbStateMachine) (start stop : Bytes)
    (limit : Option ℕ) (now : UInt64) : Except Error ScanResult :=
  (sm.scanRangeRev flt start stop limit (some (decodeForScan now))).mapError .engine

end Db

/-- What one page read finds: any store, at any time. -/
structure PageRead where
  flt : Faults
  sm : LmdbStateMachine
  now : UInt64

/-- The client's loop over the pages of a prefix; an error ends it. -/
def Db.scanPages (pfx : Bytes) (n : ℕ) :
    Option Bytes → List PageRead → Except Error (Pages Bytes Bytes)
  | _, [] => .ok ⟨[], false⟩
  | after, r :: rs => do
      let page ← Db.scanPrefix r.flt r.sm pfx after (some n) r.now
      if page.entries.length < n then return ⟨[page.entries], true⟩
      else
        let rest ← Db.scanPages pfx n (lastKey page.entries) rs
        return ⟨page.entries :: rest.read, rest.ended⟩

namespace PageRead

/-- The payload of a live value under `k`. -/
def Has (r : PageRead) (k payload : Bytes) : Prop :=
  logicalValue (r.sm.kv.get k) r.now = .ok (some payload)

def Live (r : PageRead) (k : Bytes) : Prop := ∃ payload, r.Has k payload

/-- The live entries of the prefix, in key order. -/
def view (pfx : Bytes) (r : PageRead) : List (Bytes × Bytes) :=
  scanItems (some (decodeForScan r.now)) (prefixItems r.sm.kv pfx none)

theorem mem_view {pfx : Bytes} {r : PageRead} {k payload : Bytes} :
    (k, payload) ∈ r.view pfx ↔ pfx <+: k ∧ r.Has k payload := by
  rw [view, mem_scanItems_some]
  simp only [mem_prefixItems, decodeForScan_eq_some]
  constructor
  · rintro ⟨v, ⟨hget, hpfx, -⟩, hv⟩
    refine ⟨hpfx, ?_⟩
    rw [Has, hget]
    exact hv
  · rintro ⟨hpfx, hhas⟩
    rw [Has] at hhas
    cases hget : r.sm.kv.get k with
    | none =>
        rw [hget] at hhas
        cases hhas
    | some v =>
        rw [hget] at hhas
        exact ⟨v, ⟨rfl, hpfx, nofun⟩, hhas⟩

theorem view_increasing (pfx : Bytes) (r : PageRead) : Increasing (r.view pfx) :=
  scanItems_sorted _ (r.sm.kv.toList_sorted.filter _)

end PageRead

/-! ## One page -/

/-- Beyond a key of the prefix, the prefix scan is the rest of the view. -/
theorem scanItems_prefixItems (db : Database) (pfx : Bytes) (after : Option Bytes)
    (filter : Option ScanFilter) :
    scanItems filter (prefixItems db pfx after) =
      (scanItems filter (prefixItems db pfx none)).filter (fun e => beyond after e.1) := by
  have hitems : prefixItems db pfx after =
      (prefixItems db pfx none).filter (fun e => beyond after e.1) := by
    rw [prefixItems, prefixItems, List.filter_filter]
    refine List.filter_congr (fun e _ => ?_)
    rw [inPrefix, inPrefix, Option.all_none, Bool.and_true, Bool.and_comm]
    rfl
  rw [hitems, scanItems_filter_key]

/-- **A page** after a key of the prefix is the next part of the view. -/
theorem scanPrefix_ok {r : PageRead} {pfx : Bytes} (hp : pfx ≠ []) {after : Option Bytes}
    (ha : ∀ a ∈ after, pfx <+: a) {limit : Option ℕ} {out : ScanResult}
    (h : Db.scanPrefix r.flt r.sm pfx after limit r.now = .ok out) :
    out.entries = limited limit ((r.view pfx).filter (fun e => beyond after e.1)) := by
  have hnothing : NothingBefore r.sm.kv pfx after (some (decodeForScan r.now)) :=
    nothingBefore_of_ge (fun a hmem => isLE_compare_of_isPrefix (ha a hmem))
  rw [scanPrefixBounded_ok hp (mapError_eq_ok.mp h), scanItems_inPrefix hnothing,
    scanItems_prefixItems]
  rfl

theorem ne_some_nil_of_isPrefix {pfx : Bytes} (hp : pfx ≠ []) {after : Option Bytes}
    (ha : ∀ a ∈ after, pfx <+: a) : after ≠ some [] := by
  rintro rfl
  exact hp (List.prefix_nil.mp (ha [] rfl))

theorem scanPrefix_noFaults (sm : LmdbStateMachine) {pfx : Bytes} (hp : pfx ≠ [])
    {after : Option Bytes} (ha : ∀ a ∈ after, pfx <+: a) (limit : Option ℕ) (now : UInt64) :
    ∃ out, Db.scanPrefix Faults.none sm pfx after limit now = .ok out := by
  obtain ⟨out, hout⟩ := scanPrefixBounded_noFaults sm hp (ne_some_nil_of_isPrefix hp ha) limit
    (some (decodeForScan now))
  exact ⟨out, mapError_eq_ok.mpr hout⟩

/-- The last key of a page is in the prefix. -/
theorem lastKey_isPrefix {r : PageRead} {pfx : Bytes} {after : Option Bytes} {n : ℕ} :
    ∀ a ∈ lastKey (pageOf n after (r.view pfx)), pfx <+: a := by
  intro a ha
  obtain ⟨⟨k, payload⟩, hlast, rfl⟩ := Option.map_eq_some_iff.mp ha
  exact (PageRead.mem_view.mp (mem_pageOf (List.mem_of_getLast? hlast)).1).1

/-! ## The loop -/

/-- **The loop is paging over the views** of its reads. -/
theorem scanPages_ok {pfx : Bytes} (hp : pfx ≠ []) {n : ℕ} {rs : List PageRead}
    {after : Option Bytes} (ha : ∀ a ∈ after, pfx <+: a) {p : Pages Bytes Bytes}
    (h : Db.scanPages pfx n after rs = .ok p) :
    p = paginate n after (rs.map (PageRead.view pfx)) := by
  induction rs generalizing after p with
  | nil => exact (Except.ok.inj h).symm
  | cons r rs ih =>
      obtain ⟨page, hpage, h⟩ := bind_eq_ok.mp h
      have hentries : page.entries = pageOf n after (r.view pfx) := scanPrefix_ok hp ha hpage
      rw [hentries] at h
      rw [List.map_cons]
      by_cases hshort : (pageOf n after (r.view pfx)).length < n
      · rw [if_pos hshort] at h
        rw [paginate_of_short hshort]
        exact (Except.ok.inj h).symm
      · rw [if_neg hshort] at h
        obtain ⟨rest, hrest, h⟩ := bind_eq_ok.mp h
        rw [paginate_of_full hshort, ← ih lastKey_isPrefix hrest]
        exact (Except.ok.inj h).symm

theorem scanPages_noFaults {pfx : Bytes} (hp : pfx ≠ []) (n : ℕ) {rs : List PageRead}
    (hrs : ∀ r ∈ rs, r.flt = Faults.none) {after : Option Bytes}
    (ha : ∀ a ∈ after, pfx <+: a) : ∃ p, Db.scanPages pfx n after rs = .ok p := by
  induction rs generalizing after with
  | nil => exact ⟨_, rfl⟩
  | cons r rs ih =>
      obtain ⟨page, hpage⟩ := scanPrefix_noFaults r.sm hp ha (some n) r.now
      rw [← hrs r List.mem_cons_self] at hpage
      have hentries : page.entries = pageOf n after (r.view pfx) := scanPrefix_ok hp ha hpage
      rw [Db.scanPages, hpage]
      show ∃ p, (if page.entries.length < n then _ else _) = _
      split
      · exact ⟨_, rfl⟩
      · have hlast : ∀ a ∈ lastKey page.entries, pfx <+: a := by
          rw [hentries]
          exact lastKey_isPrefix
        obtain ⟨rest, hrest⟩ := ih (fun r' hr' => hrs r' (List.mem_cons_of_mem _ hr')) hlast
        exact ⟨_, bind_eq_ok.mpr ⟨rest, hrest, rfl⟩⟩

/-- What the client may rely on, whatever happens to the store between its pages. -/
structure PagesFaithful (pfx : Bytes) (rs : List PageRead) (p : Pages Bytes Bytes) : Prop where
  increasing : Increasing p.entries
  inside : ∀ e ∈ p.entries, pfx <+: e.1
  complete : p.ended = true → ∀ k, pfx <+: k → (∀ r ∈ rs.take p.read.length, r.Live k) →
    (p.entries.map Prod.fst).count k = 1
  live : List.Forall₂ (fun page r => ∀ e ∈ page, PageRead.Has r e.1 e.2) p.read
    (rs.take p.read.length)

/-- Paging over views is faithful to the reads. -/
theorem paginate_faithful {pfx : Bytes} {n : ℕ} (hn : 0 < n) (rs : List PageRead) :
    PagesFaithful pfx rs (paginate n none (rs.map (PageRead.view pfx))) := by
  have hviews : ∀ view ∈ rs.map (PageRead.view pfx), Increasing view := by
    rintro view hview
    obtain ⟨r, -, rfl⟩ := List.mem_map.mp hview
    exact r.view_increasing pfx
  obtain ⟨hinc, -⟩ := paginate_increasing hn hviews none
  have hsound : List.Forall₂ (fun page r => ∀ e ∈ page, e ∈ PageRead.view pfx r)
      (paginate n none (rs.map (PageRead.view pfx))).read
      (rs.take (paginate n none (rs.map (PageRead.view pfx))).read.length) := by
    have h := paginate_sound n none (rs.map (PageRead.view pfx))
    rw [← List.map_take] at h
    exact List.forall₂_map_right_iff.mp h
  refine ⟨hinc, ?_, ?_, ?_⟩
  · intro e he
    obtain ⟨view, hview, hmem⟩ := mem_paginate he
    obtain ⟨r, -, rfl⟩ := List.mem_map.mp hview
    exact (PageRead.mem_view.mp hmem).1
  · intro hended k hk hlive
    have hthere : ∀ view ∈ (rs.map (PageRead.view pfx)).take
        (paginate n none (rs.map (PageRead.view pfx))).read.length, ∃ v, (k, v) ∈ view := by
      rw [← List.map_take]
      intro view hview
      obtain ⟨r, hr, rfl⟩ := List.mem_map.mp hview
      obtain ⟨payload, hhas⟩ := hlive r hr
      exact ⟨payload, PageRead.mem_view.mpr ⟨hk, hhas⟩⟩
    obtain ⟨v, hv⟩ := paginate_complete hn hviews hended (rfl : beyond none k = true) hthere
    exact List.count_eq_one_of_mem hinc.nodup_keys (List.mem_map_of_mem hv)
  · exact hsound.imp (fun page r h e he => (PageRead.mem_view.mp (h e he)).2)

/-! ## A store that does not change -/

/-- The clock decides whether a value is returned, not what is returned. -/
theorem decodeForScan_congr {t t' : UInt64} {v : Bytes}
    (h : (∃ p, decodeForScan t v = some p) ↔ ∃ p, decodeForScan t' v = some p) :
    decodeForScan t v = decodeForScan t' v := by
  unfold decodeForScan at h ⊢
  cases hd : Value.decode v with
  | error e => rfl
  | ok value =>
      rw [hd] at h
      cases value with
      | raw payload => rfl
      | ttl ts payload =>
          by_cases ht : ts > t <;> by_cases ht' : ts > t' <;> simp [ht, ht'] at h ⊢

/-- **The same store with the same live keys** shows the same entries. -/
theorem PageRead.view_congr {r r' : PageRead} (hkv : r.sm.kv = r'.sm.kv)
    (hlive : ∀ k, r.Live k ↔ r'.Live k) (pfx : Bytes) : r.view pfx = r'.view pfx := by
  have hpass : ∀ (r : PageRead) (k v : Bytes), r.sm.kv.get k = some v →
      ((∃ p, decodeForScan r.now v = some p) ↔ r.Live k) := by
    intro r k v hget
    refine exists_congr (fun p => ?_)
    rw [decodeForScan_eq_some, PageRead.Has, hget]
  rw [view, view, hkv, scanItems, scanItems, List.flatMap_def, List.flatMap_def]
  congr 1
  refine List.map_congr_left ?_
  rintro ⟨k, v⟩ hmem
  have hget := (mem_prefixItems.mp hmem).1
  have hsame : decodeForScan r.now v = decodeForScan r'.now v := by
    refine decodeForScan_congr ?_
    rw [hpass r k v (hkv ▸ hget), hpass r' k v hget]
    exact hlive k
  show scanItem (some (decodeForScan r.now)) k v = scanItem (some (decodeForScan r'.now)) k v
  rw [scanItem, scanItem, hsame]

/-- **Paging a prefix loses nothing and duplicates nothing.** Each page is read from any
store at any time. Whatever the loop returned is increasing, inside the prefix and was
live at its read; once the loop has ended, a key of the prefix that was live at each of
its reads is there exactly once. Over a store whose live keys stay, the loop ends within
as many pages as their number needs, and has what one scan of the prefix has. -/
theorem scanPages_lossless {pfx : Bytes} (hp : pfx ≠ []) {n : ℕ} (hn : 0 < n) :
    (∀ rs, (∀ r ∈ rs, r.flt = Faults.none) → ∃ p, Db.scanPages pfx n none rs = .ok p) ∧
    (∀ rs p, Db.scanPages pfx n none rs = .ok p → PagesFaithful pfx rs p) ∧
    ∀ sm now, ∃ whole, Db.scanPrefix Faults.none sm pfx none none now = .ok whole ∧
      ∀ rs, (∀ r ∈ rs, r.flt = Faults.none ∧ r.sm.kv = sm.kv ∧
          ∀ k, r.Live k ↔ PageRead.Live ⟨Faults.none, sm, now⟩ k) →
        whole.entries.length < n * rs.length →
        ∃ p, Db.scanPages pfx n none rs = .ok p ∧ p.ended = true ∧
          p.entries = whole.entries := by
  have hnone : ∀ a ∈ (none : Option Bytes), pfx <+: a := nofun
  refine ⟨fun rs hrs => scanPages_noFaults hp n hrs hnone, ?_, ?_⟩
  · intro rs p h
    rw [scanPages_ok hp hnone h]
    exact paginate_faithful hn rs
  · intro sm now
    obtain ⟨whole, hwhole⟩ := scanPrefix_noFaults sm hp hnone none now
    have hentries : whole.entries =
        (PageRead.view pfx ⟨Faults.none, sm, now⟩).filter (fun e => beyond none e.1) :=
      scanPrefix_ok (r := ⟨Faults.none, sm, now⟩) hp hnone hwhole
    refine ⟨whole, hwhole, ?_⟩
    intro rs hrs hlen
    obtain ⟨p, hp'⟩ := scanPages_noFaults hp n (fun r hr => (hrs r hr).1) hnone
    refine ⟨p, hp', ?_⟩
    rw [scanPages_ok hp hnone hp', hentries]
    refine paginate_const hn (PageRead.view_increasing pfx _) ?_ ?_
    · intro view hview
      obtain ⟨r, hr, rfl⟩ := List.mem_map.mp hview
      exact PageRead.view_congr (hrs r hr).2.1 (hrs r hr).2.2 pfx
    · rw [← hentries, List.length_map]
      exact hlen

/-- Two pages of size 1: the key of the first is removed before the second is read. -/
theorem scanPages_lossless_at :
    let rs : List PageRead := [⟨Faults.none, oneKeyStore, 5⟩,
      ⟨Faults.none, oneKeyStore.withoutKey [97], 6⟩]
    ∃ p, Db.scanPages [97] 1 none rs = .ok p ∧ PagesFaithful [97] rs p := by
  intro rs
  obtain ⟨hrun, hfaithful, -⟩ := scanPages_lossless (by decide : ([97] : Bytes) ≠ [])
    (by decide : 0 < 1)
  have hrs : ∀ r ∈ rs, r.flt = Faults.none := by
    intro r hr
    rcases List.mem_cons.mp hr with rfl | hr
    · rfl
    · rw [List.mem_singleton.mp hr]
  obtain ⟨p, hp⟩ := hrun rs hrs
  exact ⟨p, hp, hfaithful rs p hp⟩

end DLmdb
