import Durability.Proofs.Fix.Failure
import Durability.Repair.Fixer
import Durability.Sample.Programs
import Durability.Sample.Traces

namespace Durability

variable {settings : Settings} {p q : Program} {t : Trace} {e : Failure RepairError}
  {graphs : List String}

section Sample

open Sample

def storeAndCall : Program :=
  (build ([.declare "memset" .declaration 0, .reserve "main" 0]
    ++ body 1 0 [[store 10, call 0 11, ret 12]]) []).program

def otherWord : ByteRange := ⟨0x2000, 8⟩

def twoUnpersisted : Trace :=
  trace [event .store ("main", 10) [] word false, event .assertPersisted ("main", 10) [] word true,
    event .store ("main", 11) [] otherWord false,
    event .assertPersisted ("main", 11) [] otherWord true]

/-- What a repair makes of it: a flush and a fence are behind the store, but there is none behind the
call. -/
def halfRepaired : Program := (repair .usual storeAndCall twoUnpersisted).1.2

theorem repair_storeAndCall : repair .usual storeAndCall twoUnpersisted =
    ((.error (.refused (.capability .addFlushAndFence ⟨1⟩ (.noFlushAddress (.call ⟨0⟩)))),
      halfRepaired), []) := by
  decide +kernel

theorem halfRepaired_ne : halfRepaired ≠ storeAndCall := by decide +kernel

end Sample

/-- A repair that fails leaves the program as it was, or with the first few of its fixes carried out in
full. The program is unchanged exactly if nothing comes before the fix that fails. -/
theorem repair_failed (h : repair settings p t = ((.error e, q), graphs)) :
    (computeRepair settings p t = (.error e, graphs) ∧ q = p) ∨
      ∃ o done i fix, computeRepair settings p t = (.ok o, graphs) ∧
        o.fixes.StoppedAt t.source e done i fix p q := by
  rw [repair] at h
  split at h
  · next hcompute =>
    cases h
    exact .inl ⟨hcompute, rfl⟩
  · next o graphs' hcompute =>
    obtain ⟨hrun, rfl⟩ := Prod.mk.inj h
    obtain happly | ⟨modified, r, -, h⟩ := Stateful.bind_eq_error_iff.1 hrun
    · obtain ⟨done, i, fix, hstopped⟩ := FixMap.exists_stoppedAt happly
      exact .inr ⟨o, done, i, fix, hcompute, hstopped⟩
    · cases h

theorem repair_failed_storeAndCall : ∃ e o done i fix,
    repair .usual storeAndCall twoUnpersisted = ((.error e, halfRepaired), []) ∧
      computeRepair .usual storeAndCall twoUnpersisted = (.ok o, []) ∧
      o.fixes.StoppedAt .generic e done i fix storeAndCall halfRepaired ∧ done ≠ [] := by
  obtain ⟨-, hsame⟩ | ⟨o, done, i, fix, hcompute, hstopped⟩ := repair_failed repair_storeAndCall
  · exact absurd hsame halfRepaired_ne
  · exact ⟨_, o, done, i, fix, repair_storeAndCall, hcompute, hstopped, fun hdone ↦
      halfRepaired_ne (hstopped.unchanged.2 hdone)⟩

/-- The first fix of a failed repair stays in the program. -/
theorem repair_keeps_first : storeAndCall.validate = .ok () ∧ ∃ cause q graphs,
    repair .usual storeAndCall twoUnpersisted = ((.error (.refused cause), q), graphs) ∧
      q ≠ storeAndCall :=
  ⟨by decide +kernel, _, _, _, repair_storeAndCall, halfRepaired_ne⟩

end Durability
