import Durability.Trace.Event
import Mathlib.Data.List.Basic

namespace Durability

variable {range : ByteRange} {e f : Event} {l l' : List Event}

/-- Whether an event of this kind has to do with the bytes of `range`. -/
def Event.Touches (kind : EventKind) (range : ByteRange) (e : Event) : Prop :=
  e.kind = kind ∧ ∃ a ∈ e.addresses, a.overlaps range

/-- Some flush of the range, and behind it a fence. -/
def WrittenBack (range : ByteRange) (l : List Event) : Prop :=
  ∃ f g, [f, g].Sublist l ∧ f.Touches .flush range ∧ g.kind = .fence

/-- After the events of `l`, all that has been stored to the range has been written back. -/
def Durable (range : ByteRange) (l : List Event) : Prop :=
  ∀ e later, e :: later <:+ l → e.Touches .store range → WrittenBack range later

/-- After the events of `l`, all that has been stored to the range has been flushed. -/
def Flushed (range : ByteRange) (l : List Event) : Prop :=
  ∀ e later, e :: later <:+ l → e.Touches .store range → ∃ f ∈ later, f.Touches .flush range

theorem durable_cons :
    Durable range (e :: l) ↔ (e.Touches .store range → WrittenBack range l) ∧ Durable range l := by
  simp only [Durable, List.suffix_cons_iff]
  constructor
  · exact fun h ↦ ⟨h e l (.inl rfl), fun d later hl ↦ h d later (.inr hl)⟩
  · rintro ⟨he, h⟩ d later (hl | hl)
    · cases hl
      exact he
    · exact h d later hl

theorem flushed_cons : Flushed range (e :: l) ↔
    (e.Touches .store range → ∃ f ∈ l, f.Touches .flush range) ∧ Flushed range l := by
  simp only [Flushed, List.suffix_cons_iff]
  constructor
  · exact fun h ↦ ⟨h e l (.inl rfl), fun d later hl ↦ h d later (.inr hl)⟩
  · rintro ⟨he, h⟩ d later (hl | hl)
    · cases hl
      exact he
    · exact h d later hl

theorem flushed_concat (hf : f.kind ≠ .store) :
    Flushed range (l ++ [f]) ↔ f.Touches .flush range ∨ Flushed range l := by
  induction l with
  | nil =>
    refine iff_of_true ?_ (.inr fun e later hl ↦ by cases List.suffix_nil.1 hl)
    exact flushed_cons.2 ⟨fun h ↦ absurd h.1 hf, fun e later hl ↦ by cases List.suffix_nil.1 hl⟩
  | cons e l ih =>
    rw [List.cons_append, flushed_cons, flushed_cons, ih]
    simp only [List.mem_append, List.mem_singleton, or_and_right, exists_or, exists_eq_left]
    grind

theorem durable_append_iff (noFlush : ∀ f ∈ l', ¬ f.Touches .flush range)
    (fenced : ∃ g ∈ l', g.kind = .fence) :
    Durable range (l ++ l') ↔ (∀ e ∈ l', ¬ e.Touches .store range) ∧ Flushed range l := by
  induction l with
  | nil =>
    have hback : ∀ l, l <:+ l' → ¬ WrittenBack range l := fun l hl ⟨f, g, hfg, hf, _⟩ ↦
      noFlush f (hl.subset (hfg.subset List.mem_cons_self)) hf
    constructor
    · intro h
      refine ⟨fun e he hstore ↦ ?_, fun e later hl ↦ by cases List.suffix_nil.1 hl⟩
      obtain ⟨before, later, hl⟩ := List.append_of_mem he
      have hsuffix : e :: later <:+ l' := ⟨before, hl.symm⟩
      exact hback later ((List.suffix_cons e later).trans hsuffix) (h e later hsuffix hstore)
    · exact fun ⟨h, _⟩ e later hl hstore ↦ absurd hstore (h e (hl.subset List.mem_cons_self))
  | cons e l ih =>
    have hback : WrittenBack range (l ++ l') ↔ ∃ f ∈ l, f.Touches .flush range := by
      constructor
      · rintro ⟨f, g, hfg, hf, -⟩
        rcases List.mem_append.1 (hfg.subset List.mem_cons_self) with h | h
        · exact ⟨f, h, hf⟩
        · exact absurd hf (noFlush f h)
      · rintro ⟨f, hmem, hf⟩
        obtain ⟨g, hg, hkind⟩ := fenced
        exact ⟨f, g, (List.singleton_sublist.2 hmem).append (List.singleton_sublist.2 hg), hf, hkind⟩
    rw [List.cons_append, durable_cons, hback, ih, flushed_cons]
    tauto

end Durability
