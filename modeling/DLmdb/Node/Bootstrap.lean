import DLmdb.Node.Stores

/-!
# A node brings up another

A node that is new, or too far behind, installs a snapshot of another node and is sent what
follows in the log of that one. Meanwhile the other goes on: it applies, purges, crashes and
forgets what it had not recorded. The copy it made earlier and the log it has now still are the
whole log together, until a purge may have passed the label of the copy.
-/

namespace DLmdb

open Framework Lmdb

variable {Entry HardState : Type} {fmt : Formats Entry HardState} {full : FullLog fmt}
  {t : UInt64} {k : Bytes}

/-- A copy of a node, under a position it has applied, leads on. -/
theorem FitsTogether.labelled {s : NodeStores} (h : FitsTogether full t k s)
    (hk : full.applied.SwapFree k) {l : LogId}
    (hl : full.applied.Covers (full.count s.committed) l.index)
    (hle : l.index ≤ s.sm.lastAppliedIndex) {dirErr : Option String} {flt : Faults}
    {checksum : Bytes} {file : SnapshotFile}
    (hgen : (generateSnapshotData dirErr flt s.sm.env l).result = .ok (checksum, file)) :
    Labelled full.applied t (full.count s.committed) k (⟨some l, checksum⟩, file) := by
  refine ⟨l, s.sm.kv, rfl, ?_, h.node.memory.rewind hk hl hle⟩
  rw [generateSnapshotData_ok hgen]
  rfl

/-- **A node brings up another**, whatever that one held before. The node runs, makes a copy
under a position it has applied, and runs on: as long as its position on disk, and so any
purge, has not passed the label, its log has exactly the committed entries that the copy lacks;
and a node that installs the copy and applies these gives every key that is never swapped the
value of the whole log. -/
theorem node_brings_up_another (full : FullLog fmt) (hk : full.applied.SwapFree k)
    {before after : List (StoreEvent Entry HardState)}
    (hes : Along (NodeStores.step full) (NodeStores.Allows full) NodeStores.fresh
      (before ++ after))
    (ht : ∀ flt key now, StoreEvent.reap flt key now ∈ before ++ after → now ≤ t) :
    let s := runFrom (NodeStores.step full) NodeStores.fresh before
    let s' := runFrom (NodeStores.step full) s after
    ∀ dirErr genFlt l checksum file, full.applied.Covers (full.count s.committed) l.index →
      l.index ≤ s.sm.lastAppliedIndex →
      (generateSnapshotData dirErr genFlt s.sm.env l).result = .ok (checksum, file) →
      s'.marker ≤ l.index → ∀ task snapFlt flt target,
      let install := applySnapshotFromFile task snapFlt flt target ⟨some l, checksum⟩ file
      install.result = .ok () → ∀ walFlt out,
      s'.wal.getEntries fmt walFlt (l.index + 1) (UInt64.ofNat s'.committed) = .ok out →
      out.filterMap full.command = full.applied.again (full.count s'.committed) l.index ∧
      ∀ cuts sm rs, cutEntries cuts = out.filterMap full.command →
        applyChunks (target.after install) cuts = .ok (sm, rs) →
        logicalValue (sm.kv.get k) t =
          logicalValue (full.applied.contents (full.count s'.committed) k) t := by
  intro s s' dirErr genFlt l checksum file hl hle hgen hmarker task snapFlt flt target install
    hinstall walFlt out hout
  obtain ⟨hbefore, hafter⟩ := along_append.mp hes
  obtain ⟨hs, -⟩ : FitsTogether full t k s ∧ _ := (FitsTogether.fresh full t k).run hk hbefore
    (fun flt key now hmem => ht flt key now (List.mem_append_left _ hmem))
  obtain ⟨hs', hgrown⟩ : FitsTogether full t k s' ∧ s.committed ≤ s'.committed :=
    hs.run hk hafter (fun flt key now hmem => ht flt key now (List.mem_append_right _ hmem))
  -- the copy, seen from where the node is now
  obtain ⟨n, hn⟩ := Nat.exists_eq_add_of_le (full.count_mono hgrown)
  have hcopy : Labelled full.applied t (full.count s'.committed) k (⟨some l, checksum⟩, file) := by
    rw [hn]
    exact (hs.labelled hk hl hle hgen).commit n
  obtain ⟨db, hfile, hinst⟩ := applySnapshotFromFile_installed hinstall
  have hkv : file .kvDb = some (target.after install).kv := by
    rw [hfile]
    exact congrArg some hinst.kv.symm
  have htrack := hcopy.onTrack hkv hinst.lastApplied hinst.marker
  have hindex : (target.after install).lastAppliedIndex = l.index :=
    congrArg LogId.index hinst.lastApplied
  have hcovers : full.applied.Covers (full.count s'.committed) l.index :=
    hl.mono (full.count_mono hgrown)
  have hdue := hs'.tail hcovers hmarker rfl hout
  refine ⟨hdue, ?_⟩
  intro cuts sm rs hcuts happly
  rw [hdue, ← hindex] at hcuts
  exact (htrack.caughtUp hk hcuts happly).logicalValue_eq

/-- The copy is made after the first insert. Then the second is applied, the log is purged up
to the label, and the process stops; a new node gets the copy and the third entry. -/
theorem node_brings_up_another_insert :
    let before : List (StoreEvent LogId UInt64) :=
      [.write Faults.none (.persistEntries threeEntries.entries), .commit 3,
        .call (.apply Faults.none 1), .call (.persist Faults.none)]
    let after : List (StoreEvent LogId UInt64) :=
      [.call (.apply Faults.none 1), .write Faults.none (.purge ⟨2, 1⟩),
        .crashCalling (.persist Faults.none) 0]
    let s := runFrom (NodeStores.step threeEntries) NodeStores.fresh before
    let s' := runFrom (NodeStores.step threeEntries) s after
    let install := applySnapshotFromFile .returned Faults.none Faults.none freshStateMachine
      ⟨some ⟨2, 1⟩, List.replicate 32 0⟩ (fun d => some (s.sm.env d))
    ∃ out sm rs, s'.wal.getEntries plainFormats Faults.none 3 3 = .ok out ∧
      (out.filterMap threeEntries.command).map ApplyEntry.index = [3] ∧
      applyChunks (freshStateMachine.after install)
        [(Faults.none, out.filterMap threeEntries.command)] = .ok (sm, rs) ∧
      logicalValue (sm.kv.get [7]) 0 = .ok (some (toBeBytes 3)) := by
  intro before after s s' install
  have hes : Along (NodeStores.step threeEntries) (NodeStores.Allows threeEntries)
      NodeStores.fresh (before ++ after) := by
    refine ⟨?_, ?_, trivial, trivial, trivial, ?_, trivial, trivial⟩
    · have hpos : ∀ e ∈ threeEntries.entries, 0 < e.index.toNat := by decide
      intro e he hle
      exact absurd hle (Nat.not_le.mpr (hpos e he))
    · show ∀ e ∈ _, Database.get _ _ = some _
      decide
    · show (2 : UInt64) ≤ NodeStores.marker _
      decide
  have hk : threeEntries.applied.SwapFree [7] := by decide
  have ht : ∀ flt key now, StoreEvent.reap flt key now ∈ before ++ after → now ≤ 0 := by
    simp [before, after]
  have hgen : (generateSnapshotData none Faults.none s.sm.env ⟨2, 1⟩).result =
      .ok (List.replicate 32 0, fun d => some (s.sm.env d)) := rfl
  have hinstall : install.result = .ok () := by decide
  obtain ⟨m, hrep, -⟩ := ((FitsTogether.fresh _ _ _).run hk hes ht).1.log
  obtain ⟨out, hout, -⟩ := (hrep.getEntries_answered Faults.none 3 3).exists_ok
  obtain ⟨hdue, hvalue⟩ := node_brings_up_another threeEntries hk hes ht none Faults.none ⟨2, 1⟩
    _ _ (by decide) (by decide) hgen (by decide) .returned Faults.none Faults.none
    freshStateMachine hinstall Faults.none out hout
  have hthird : out.filterMap threeEntries.command =
      [⟨3, 1, .insert [7] (Value.encodeRaw (toBeBytes 3)) none⟩] := by
    rw [hdue]
    decide
  obtain ⟨sm, rs, happly⟩ := applyChunks_noFaults (freshStateMachine.after install)
    [out.filterMap threeEntries.command] (by
      rw [hthird]
      decide)
  refine ⟨out, sm, rs, hout, by rw [hthird]; rfl, happly, ?_⟩
  rw [hvalue _ sm rs (by rw [cutEntries_noFaults, List.flatten_singleton]) happly]
  decide

end DLmdb
