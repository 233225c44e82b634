import Durability.LocationIndex
import Durability.Proofs.Program.Total

namespace Durability

variable {p : Program} {i : InstrId} {loc : Location}

theorem Program.standsAt_of_mem_attached {l : List InstrId} (h : p.attached = .ok l) (hi : i ∈ l) :
    ∃ b k, p.StandsAt b k i := by
  obtain ⟨blocks, hblocks, h⟩ := bind_eq_ok_iff.1 h
  cases pure_eq_ok_iff.1 h
  obtain ⟨B, hB, hi⟩ := List.mem_flatMap.1 hi
  obtain ⟨b, -, hb⟩ := exists_of_mem_mapM hblocks hB
  obtain ⟨k, hk⟩ := List.mem_iff_getElem?.1 hi
  exact ⟨b, k, B, hb, hk⟩

namespace LocationIndex

variable {x y : LocationIndex} {P : InstrId → Prop}

def Holds (P : InstrId → Prop) (x : LocationIndex) : Prop :=
  ∀ d ∈ x.drawers, ∀ e ∈ d.2, P e.2

theorem Holds.file {k : Key} {entry : Location × InstrId}
    {ds : List (Key × List (Location × InstrId))} (h : ∀ d ∈ ds, ∀ e ∈ d.2, P e.2) (hi : P entry.2) :
    ∀ d ∈ file k entry ds, ∀ e ∈ d.2, P e.2 := by
  induction ds with
  | nil =>
    intro d hd e he
    rw [List.mem_singleton.1 hd] at he
    rwa [List.mem_singleton.1 he]
  | cons d ds ih =>
    obtain ⟨hd, hds⟩ := List.forall_mem_cons.1 h
    rw [LocationIndex.file]
    split
    · refine List.forall_mem_cons.2 ⟨fun e he ↦ ?_, hds⟩
      obtain he | he := List.mem_append.1 he
      · exact hd e he
      · rwa [List.mem_singleton.1 he]
    · exact List.forall_mem_cons.2 ⟨hd, ih hds⟩

theorem Holds.register (h : x.Holds P) (hi : P i) (hy : register p x i = .ok y) : y.Holds P := by
  obtain ⟨ins, -, hy⟩ := bind_eq_ok_iff.1 hy
  split at hy
  · obtain ⟨loc, -, hy⟩ := bind_eq_ok_iff.1 hy
    cases pure_eq_ok_iff.1 hy
    split
    · exact Holds.file h hi
    · exact h
  · cases pure_eq_ok_iff.1 hy
    exact h

theorem Holds.foldlM {l : List InstrId} (h : x.Holds P) (hl : ∀ i ∈ l, P i)
    (hy : l.foldlM (LocationIndex.register p) x = .ok y) : y.Holds P := by
  induction l generalizing x with
  | nil =>
    cases hy
    exact h
  | cons i l ih =>
    obtain ⟨hi, hl⟩ := List.forall_mem_cons.1 hl
    obtain ⟨z, hz, hy⟩ := foldlM_cons_eq_ok_iff.1 hy
    exact ih (h.register hi hz) hl hy

theorem Holds.of_ofProgram (h : ofProgram p = .ok x)
    (hP : ∀ is, p.attached = .ok is → ∀ i ∈ is, P i) : x.Holds P := by
  obtain ⟨is, his, h⟩ := bind_eq_ok_iff.1 h
  exact Holds.foldlM (fun _ hd ↦ absurd hd List.not_mem_nil) (hP is his) h

theorem holds_of_ofProgram (h : ofProgram p = .ok x) : x.Holds fun i ↦ ∃ b k, p.StandsAt b k i :=
  .of_ofProgram h fun _ his _ ↦ Program.standsAt_of_mem_attached his

theorem holds_attached (hv : p.Valid) (h : ofProgram p = .ok x) : x.Holds p.Attached :=
  .of_ofProgram h fun _ his _ ↦ hv.attached_of_mem his

theorem Holds.of_mem_lookup (h : x.Holds P) (hi : i ∈ x.lookup loc) : P i := by
  obtain ⟨e, he, rfl⟩ := List.mem_map.1 hi
  have he := List.mem_of_mem_filter he
  rw [drawer] at he
  split at he
  · next d hd => exact h d (List.mem_of_find?_eq_some hd) e he
  · cases he

theorem Holds.exists_instr (h : x.Holds p.Attached) (hv : p.Valid) (hi : i ∈ x.lookup loc) :
    ∃ ins, p.instr i = .ok ins := by
  obtain ⟨b, k, hstands⟩ := (h.of_mem_lookup hi).stands
  obtain ⟨B, ins, -, hins, -⟩ := hstands.instr hv
  exact ⟨ins, hins⟩

theorem mem_of_get {is : List InstrId} (h : x.get loc = .ok is) (hi : i ∈ is) : i ∈ x.lookup loc := by
  rw [get] at h
  split at h
  · cases h
  · cases h
    exact SortedSet.mem_ofList.1 hi

theorem eq_singleton_of_exactlyOne {l : List InstrId} (h : exactlyOne loc l = .ok i) : l = [i] := by
  rw [exactlyOne.eq_def] at h
  split at h
  · cases h
    rfl
  · cases h
  · cases h

theorem mem_of_exactlyOne {l : List InstrId} (h : exactlyOne loc l = .ok i) : i ∈ l := by
  rw [eq_singleton_of_exactlyOne h]
  exact List.mem_cons_self

theorem instrsFor_of_uniqueFor {settings : Settings} {kind : EventKind}
    (h : x.uniqueFor loc settings p kind = .ok i) : x.instrsFor loc settings p kind = .ok [i] := by
  obtain ⟨is, his, hi⟩ := bind_eq_ok_iff.1 h
  rw [his, eq_singleton_of_exactlyOne (Attempt.ofExcept_eq_ok_iff.1 hi)]

theorem exists_get_of_instrsFor {settings : Settings} {kind : EventKind} {is : List InstrId}
    (h : x.instrsFor loc settings p kind = .ok is) : ∃ js, x.get loc = .ok js ∧ is.Sublist js := by
  obtain ⟨js, hjs, h⟩ := bind_eq_ok_iff.1 h
  refine ⟨js, Attempt.ofExcept_eq_ok_iff.1 hjs, ?_⟩
  split at h
  · obtain ⟨fitting, hfit, h⟩ := bind_eq_ok_iff.1 h
    cases pure_eq_ok_iff.1 h
    split
    · exact .refl _
    · exact sublist_of_filterM hfit
  · cases pure_eq_ok_iff.1 h
    exact .refl _

theorem Holds.of_instrsFor {settings : Settings} {kind : EventKind} {is : List InstrId}
    (h : x.Holds P) (his : x.instrsFor loc settings p kind = .ok is) (hi : i ∈ is) : P i := by
  obtain ⟨js, hjs, hsub⟩ := exists_get_of_instrsFor his
  exact h.of_mem_lookup (mem_of_get hjs (hsub.subset hi))

theorem Holds.of_uniqueFor {settings : Settings} {kind : EventKind} (h : x.Holds P)
    (hi : x.uniqueFor loc settings p kind = .ok i) : P i := by
  obtain ⟨is, his, hi⟩ := bind_eq_ok_iff.1 hi
  exact h.of_instrsFor his (mem_of_exactlyOne (Attempt.ofExcept_eq_ok_iff.1 hi))

theorem Holds.of_uniqueWhere {keep : InstrId → Except Fault Bool} (h : x.Holds P)
    (hi : x.uniqueWhere loc keep = .ok i) : P i ∧ keep i = .ok true := by
  obtain ⟨is, his, hi⟩ := bind_eq_ok_iff.1 hi
  obtain ⟨kept, hkept, hi⟩ := bind_eq_ok_iff.1 hi
  have hi := mem_of_exactlyOne (Attempt.ofExcept_eq_ok_iff.1 hi)
  obtain ⟨hmem, hkeep⟩ := mem_of_mem_filterM hkept hi
  exact ⟨h.of_mem_lookup (mem_of_get (Attempt.ofExcept_eq_ok_iff.1 his) hmem),
    Attempt.lift_eq_ok_iff.1 hkeep⟩

theorem nodup_of_instrsFor {settings : Settings} {kind : EventKind} {is : List InstrId}
    (h : x.instrsFor loc settings p kind = .ok is) : is.Nodup := by
  obtain ⟨js, hjs, hsub⟩ := exists_get_of_instrsFor h
  rw [get] at hjs
  split at hjs
  · cases hjs
  · cases hjs
    exact (SortedSet.nodup_toList _).sublist hsub

theorem exists_ofProgram (hv : p.Valid) : ∃ x, ofProgram p = .ok x := by
  obtain ⟨is, his⟩ := hv.attached_eq_ok
  refine exists_bind_eq_ok his (FailsOnly.exists_eq_ok (.foldlM (fun x i hi ↦ .of_ok ?_) _))
  have hattached := hv.attached_of_mem his hi
  obtain ⟨b, k, hstands⟩ := hattached.stands
  obtain ⟨B, ins, -, hins, -⟩ := hstands.instr hv
  refine exists_bind_eq_ok hins ?_
  split
  · obtain ⟨loc, hloc⟩ := hattached.exists_locationOf hv
    exact exists_bind_eq_ok hloc ⟨_, rfl⟩
  · exact ⟨_, rfl⟩

section FailsOnly

variable {E : Failure RepairError → Prop} (hunmapped : ∀ loc, E (.refused (.unmapped loc)))
include hunmapped

theorem get_failsOnly : FailsOnly E (Attempt.ofExcept (x.get loc)) := by
  apply FailsOnly.ofExcept
  rw [get]
  split
  · exact .error (hunmapped loc)
  · exact .of_ok ⟨_, rfl⟩

theorem instrsFor_failsOnly {settings : Settings} {kind : EventKind}
    (hinstr : ∀ i ∈ x.lookup loc, ∃ ins, p.instr i = .ok ins) :
    FailsOnly E (x.instrsFor loc settings p kind) := by
  refine .bind (get_failsOnly hunmapped) fun is his ↦ ?_
  have his := Attempt.ofExcept_eq_ok_iff.1 his
  split
  · refine .bind (.filterM fun i hi ↦ ?_) fun fitting _ ↦ .of_ok ⟨_, rfl⟩
    obtain ⟨ins, hins⟩ := hinstr i (mem_of_get his hi)
    exact .bind (.lift_ok ⟨ins, hins⟩) fun _ _ ↦ .of_ok ⟨_, rfl⟩
  · exact .of_ok ⟨is, rfl⟩

variable (hambiguous : ∀ loc n, E (.refused (.ambiguous loc n)))
include hambiguous

theorem exactlyOne_failsOnly {l : List InstrId} :
    FailsOnly E (Attempt.ofExcept (exactlyOne loc l)) := by
  apply FailsOnly.ofExcept
  rw [exactlyOne.eq_def]
  split
  · exact .of_ok ⟨_, rfl⟩
  · exact .error (hunmapped loc)
  · exact .error (hambiguous loc _)

theorem uniqueWhere_failsOnly {keep : InstrId → Except Fault Bool}
    (hkeep : ∀ i ∈ x.lookup loc, ∃ b, keep i = .ok b) : FailsOnly E (x.uniqueWhere loc keep) := by
  refine .bind (get_failsOnly hunmapped) fun is his ↦ ?_
  have his := Attempt.ofExcept_eq_ok_iff.1 his
  refine .bind (.filterM fun i hi ↦ .lift_ok (hkeep i (mem_of_get his hi))) fun kept _ ↦ ?_
  exact exactlyOne_failsOnly hunmapped hambiguous

theorem uniqueFor_failsOnly {settings : Settings} {kind : EventKind}
    (hinstr : ∀ i ∈ x.lookup loc, ∃ ins, p.instr i = .ok ins) :
    FailsOnly E (x.uniqueFor loc settings p kind) :=
  .bind (instrsFor_failsOnly hunmapped hinstr) fun _ _ ↦ exactlyOne_failsOnly hunmapped hambiguous

end FailsOnly

end LocationIndex

end Durability
