import DLmdb.StateMachine.Recovery
import DLmdb.StateMachine.Snapshot

/-!
# A snapshot and the rest of the log

The caller of `generate_snapshot_data` chooses `last_included` first; the copy is
taken later, and reflects whatever was applied by then. A target that installs the
snapshot records `last_included` as its `last_applied` and asks for the entries
after it, so it gets those in between a second time: the same question as in crash
recovery, with the snapshot's position in the place of the persisted one.
-/

namespace DLmdb

open Framework Lmdb

/-- A target that installed a copy of the source `s`, and the entries after `l`. -/
theorem Node.Holds.installed_catchesUp_iff {log : RaftLog} {s : Node} (h : s.Holds log)
    {l : LogId} (hl : log.Covers s.applied l.index) {dirErr : Option String} {genFlt : Faults}
    {checksum : Bytes} {file : SnapshotFile}
    (hgen : (generateSnapshotData dirErr genFlt s.sm.env l).result = .ok (checksum, file))
    {task : TaskEnd} {snapFlt flt : Faults} {target : LmdbStateMachine}
    {metadata : SnapshotMetadata}
    (hinstall : (applySnapshotFromFile task snapFlt flt target metadata file).result = .ok ()) :
    CatchesUp log s.applied l.index
        (target.after (applySnapshotFromFile task snapFlt flt target metadata file)) ↔
      Replayable (logWrites (log.again s.applied l.index)) (log.contents s.applied) := by
  obtain ⟨db, hfile, hinst⟩ := applySnapshotFromFile_installed hinstall
  -- the target holds what the source held when the copy was taken
  have hkv : (target.after (applySnapshotFromFile task snapFlt flt target metadata file)).kv.get =
      log.contents s.applied := by
    rw [generateSnapshotData_ok hgen] at hfile
    have hdb : s.sm.env .kvDb = db := Option.some.inj hfile
    rw [LmdbStateMachine.kv, hinst.kv, ← hdb]
    exact h.kv
  rw [← hkv]
  exact catchesUp_iff hkv h.storable hl

/-- **A snapshot plus the tail is the full log exactly when the entries between
`last_included` and the copy can be replayed.** For every log and every run of
the source: `before` are its calls up to the choice of `l`, a position it has
applied; `during` those between that choice and the copy. -/
theorem snapshot_catchesUp_iff {log : RaftLog} (before during : List NodeCall) {l : LogId}
    (hl : log.Covers (Node.fresh.run log before).applied l.index)
    {dirErr : Option String} {genFlt : Faults} {checksum : Bytes} {file : SnapshotFile}
    (hgen : (generateSnapshotData dirErr genFlt
      ((Node.fresh.run log before).run log during).sm.env l).result = .ok (checksum, file))
    (task : TaskEnd) (snapFlt flt : Faults) (target : LmdbStateMachine)
    {metadataChecksum : Bytes}
    (hinstall : (applySnapshotFromFile task snapFlt flt target ⟨some l, metadataChecksum⟩
      file).result = .ok ()) :
    let m := ((Node.fresh.run log before).run log during).applied
    CatchesUp log m l.index
        (target.after (applySnapshotFromFile task snapFlt flt target ⟨some l, metadataChecksum⟩
          file)) ↔
      Replayable (logWrites (log.again m l.index)) (log.contents m) := by
  intro m
  have hsource := ((Node.fresh_holds log).run before).run during
  exact hsource.installed_catchesUp_iff (hl.mono (Node.applied_le_run _ during)) hgen hinstall

/-- A log without swaps. -/
def insertLog : RaftLog where
  entries := [⟨1, 1, .insert [7] [1] none⟩, ⟨2, 1, .insert [7] [2] none⟩]
  increasing := by decide
  positive := by decide

/-- The second insert is inside the snapshot and comes again: nothing changes. -/
theorem snapshot_catchesUp_inserts :
    let source := (Node.fresh.run insertLog [.apply Faults.none 1]).run insertLog
      [.apply Faults.none 1]
    let install := applySnapshotFromFile .returned Faults.none Faults.none freshStateMachine
      ⟨some ⟨1, 1⟩, []⟩ (fun d => some (source.sm.env d))
    CatchesUp insertLog source.applied 1 (freshStateMachine.after install) := by
  intro source install
  have hl : insertLog.Covers (Node.fresh.run insertLog [.apply Faults.none 1]).applied 1 :=
    Or.inr ⟨⟨1, 1, .insert [7] [1] none⟩, by decide, rfl⟩
  have hgen : (generateSnapshotData none Faults.none source.sm.env ⟨1, 1⟩).result =
      .ok (List.replicate 32 0, fun d => some (source.sm.env d)) := rfl
  have hinstall : install.result = .ok () := by decide
  refine (snapshot_catchesUp_iff [.apply Faults.none 1] [.apply Faults.none 1] hl hgen .returned
    Faults.none Faults.none freshStateMachine hinstall).mpr ?_
  exact Replayable.of_isAssign (by decide) _

/-- The two swaps of `swapLog`, after an entry that the snapshot declares. -/
def tailLog : RaftLog where
  entries := [⟨1, 1, .noop⟩, ⟨2, 1, .compareAndSwap [7] (some [2]) [3]⟩,
    ⟨3, 1, .compareAndSwap [7] none [2]⟩]
  increasing := by decide
  positive := by decide

/-- The source applies entry 1, `last_included` is fixed there, entries 2 and 3 are
applied, and the copy is taken. The target gets the swaps a second time and ends
with another value than the log gives. -/
theorem snapshot_tail_swaps_again :
    let source := (Node.fresh.run tailLog [.apply Faults.none 1]).run tailLog
      [.apply Faults.none 2]
    let file : SnapshotFile := fun d => some (source.sm.env d)
    let install := applySnapshotFromFile .returned Faults.none Faults.none freshStateMachine
      ⟨some ⟨1, 1⟩, []⟩ file
    (generateSnapshotData none Faults.none source.sm.env ⟨1, 1⟩).result =
        .ok (List.replicate 32 0, file) ∧
      install.result = .ok () ∧
      ¬ CatchesUp tailLog source.applied 1 (freshStateMachine.after install) := by
  intro source file install
  have hinstall : install.result = .ok () := by decide
  have hgen : (generateSnapshotData none Faults.none source.sm.env ⟨1, 1⟩).result =
      .ok (List.replicate 32 0, file) := rfl
  refine ⟨hgen, hinstall, ?_⟩
  have hsource := ((Node.fresh_holds tailLog).run [.apply Faults.none 1]).run [.apply Faults.none 2]
  have hcovers : tailLog.Covers source.applied 1 := Or.inr ⟨⟨1, 1, .noop⟩, by decide, rfl⟩
  rw [hsource.installed_catchesUp_iff (l := ⟨1, 1⟩) hcovers hgen hinstall]
  intro h
  have hkey := h [7]
  revert hkey
  decide

end DLmdb
