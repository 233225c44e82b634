import Durability.Proofs.Fix.Apply
import Durability.Proofs.Fix.Order
import Mathlib.Data.List.Chain
import Mathlib.Logic.Relation

namespace Durability.FixMap

open Relation
open scoped List

variable {m : FixMap} {waiting removals before behind chain rest : List Entry} {d e removal : Entry}
  {next : Option InstrId} {i j x y : InstrId} {fix : Fix}

def Leads (waiting : List Entry) (d e : Entry) : Prop :=
  d ∈ waiting ∧ e ∈ waiting ∧ d.2.dependent = some e.1

theorem Leads.mono {waiting' : List Entry} (h : Leads waiting d e) (hsub : waiting ⊆ waiting') :
    Leads waiting' d e := ⟨hsub h.1, hsub h.2.1, h.2.2⟩

theorem take?_eq_none (h : take? i waiting = none) : ∀ e ∈ waiting, e.1 ≠ i := by
  induction waiting with
  | nil => exact List.forall_mem_nil _
  | cons d waiting ih =>
    rw [take?] at h
    split at h
    · cases h
    · next hd => exact List.forall_mem_cons.2 ⟨hd, ih (Option.map_eq_none_iff.1 h)⟩

theorem fst_of_take? (h : take? i waiting = some (e, rest)) : e.1 = i := by
  induction waiting generalizing rest with
  | nil => cases h
  | cons d waiting ih =>
    rw [take?] at h
    split at h
    · next hd =>
      cases h
      exact hd
    · obtain ⟨⟨f, r⟩, hr, he⟩ := Option.map_eq_some_iff.1 h
      cases he
      exact ih hr

/-- Following dependents from `next` ends only where there is nothing left to follow. -/
structure Followed (waiting : List Entry) (next : Option InstrId) (chain : List Entry) : Prop where
  linked : chain.IsChain (Leads waiting)
  head : ∀ e ∈ chain.head?, next = some e.1
  first : ∀ e ∈ waiting, next = some e.1 → e ∈ chain
  closed : ∀ d ∈ chain, ∀ e ∈ waiting, d.2.dependent = some e.1 → e ∈ chain

theorem Followed.nil (h : ∀ e ∈ waiting, next ≠ some e.1) : Followed waiting next [] where
  linked := .nil
  head _ he := by cases he
  first e he hnext := absurd hnext (h e he)
  closed := List.forall_mem_nil _

theorem followed (apart : waiting.Pairwise fun d e ↦ d.1 ≠ e.1) (next : Option InstrId) :
    Followed waiting next (follow waiting next).1 := by
  fun_induction follow waiting next with
  | case1 waiting => exact .nil fun _ _ hnext ↦ by cases hnext
  | case2 waiting i h =>
    exact .nil fun e he hi ↦ take?_eq_none h e he (Option.some.inj hi).symm
  | case3 waiting i d rest h chain rest' hfollow ih =>
    have hperm := perm_of_take? h
    have hapart : (d :: rest).Pairwise fun d e ↦ d.1 ≠ e.1 :=
      hperm.pairwise apart fun hne ↦ Ne.symm hne
    obtain ⟨hd, hrest⟩ := List.pairwise_cons.1 hapart
    have hsub : rest ⊆ waiting := fun e he ↦ hperm.mem_iff.2 (List.mem_cons_of_mem d he)
    have ih := ih hrest
    rw [hfollow] at ih
    have hwaits : ∀ e ∈ chain, e ∈ waiting := fun e he ↦ by
      have hpart := follow_perm rest d.2.dependent
      rw [hfollow] at hpart
      exact hsub (hpart.mem_iff.1 (List.mem_append_left _ he))
    refine ⟨?_, ?_, fun e he hi ↦ ?_, fun c hc e he hdep ↦ ?_⟩
    · refine List.isChain_cons.2 ⟨fun e he ↦ ?_, ih.linked.imp fun _ _ hlead ↦ hlead.mono hsub⟩
      exact ⟨hperm.mem_iff.2 List.mem_cons_self, hwaits e (List.mem_of_mem_head? he), ih.head e he⟩
    · intro e he
      cases he
      rw [fst_of_take? h]
    · obtain rfl | he := List.mem_cons.1 (hperm.mem_iff.1 he)
      · exact List.mem_cons_self
      · exact absurd ((fst_of_take? h).trans (Option.some.inj hi)) (hd e he)
    · obtain rfl | he := List.mem_cons.1 (hperm.mem_iff.1 he)
      · exact List.mem_cons_self
      · obtain rfl | hc := List.mem_cons.1 hc
        · exact List.mem_cons_of_mem c (ih.first e he hdep)
        · exact List.mem_cons_of_mem d (ih.closed c hc e he hdep)

theorem leads_of_sublist (h : chain.IsChain (Leads waiting)) (hsub : [d, e].Sublist chain) :
    ReflTransGen (Leads waiting) d e := by
  have hpairwise : chain.Pairwise (ReflTransGen (Leads waiting)) :=
    (h.imp fun _ _ hlead ↦ .single hlead).pairwise
  exact List.pairwise_pair.1 (hpairwise.sublist hsub)

theorem Followed.reverse (h : Followed waiting next chain) (hd : d ∈ chain) (he : e ∈ waiting)
    (hdep : d.2.dependent = some e.1) :
    [e, d].Sublist chain.reverse ∨ ReflTransGen (Leads waiting) e d := by
  have hmem := h.closed d hd e he hdep
  obtain ⟨front, back, rfl⟩ := List.append_of_mem hd
  rcases List.mem_append.1 hmem with hfront | hback
  · refine .inr (leads_of_sublist h.linked ?_)
    exact (List.singleton_sublist.2 hfront).append (List.singleton_sublist.2 List.mem_cons_self)
  · obtain rfl | hback := List.mem_cons.1 hback
    · exact .inr .refl
    · have hback : [d, e].Sublist (d :: back) := (List.singleton_sublist.2 hback).cons_cons d
      exact .inl (hback.trans (List.sublist_append_right front _)).reverse

/-- The conditional flushes of `waiting` that a removal needs are in front of it, in `before`. -/
structure Prepared (waiting before : List Entry) (removal : Entry) : Prop where
  closed : ∀ d ∈ removal :: before, ∀ e ∈ waiting, d.2.dependent = some e.1 → e ∈ before
  behind : ∀ d ∈ before, d ∈ waiting → ∀ e ∈ waiting, d.2.dependent = some e.1 →
    [e, d].Sublist before ∨ ReflTransGen (Leads waiting) e d

theorem Followed.prepared (h : Followed waiting removal.2.dependent chain) :
    Prepared waiting chain.reverse removal where
  closed d hd e he hdep := by
    rw [List.mem_reverse]
    obtain rfl | hd := List.mem_cons.1 hd
    · exact h.first e he hdep
    · exact h.closed d (List.mem_reverse.1 hd) e he hdep
  behind d hd _ e he hdep := h.reverse (List.mem_reverse.1 hd) he hdep

/-- What is in front of a later removal is a whole chain with its removal, and what came after that. -/
theorem Prepared.past {first : Entry} (h : Prepared rest before removal)
    (hfollowed : Followed waiting first.2.dependent chain) (hperm : (chain ++ rest).Perm waiting)
    (hfirst : first ∉ waiting) :
    Prepared waiting (chain.reverse ++ first :: before) removal where
  closed d hd e he hdep := by
    have hplaced : d ∈ removal :: before ∨ d ∈ first :: chain := by
      simp only [List.mem_cons, List.mem_append, List.mem_reverse] at hd ⊢
      tauto
    obtain hchain | hrest := List.mem_append.1 (hperm.mem_iff.2 he)
    · exact List.mem_append_left _ (List.mem_reverse.2 hchain)
    · obtain hd | hd := hplaced
      · exact List.mem_append_right _ (List.mem_cons_of_mem first (h.closed d hd e hrest hdep))
      · refine List.mem_append_left _ (hfollowed.prepared.closed d ?_ e he hdep)
        simpa using hd
  behind d hd hwaits e he hdep := by
    have hchain : chain.reverse.Sublist (chain.reverse ++ first :: before) :=
      List.sublist_append_left _ _
    have hbefore : before.Sublist (chain.reverse ++ first :: before) :=
      (List.sublist_cons_self first before).trans (List.sublist_append_right _ _)
    obtain hd' | hd' := List.mem_append.1 (hperm.mem_iff.2 hwaits)
    · exact (hfollowed.reverse hd' he hdep).imp_left (·.trans hchain)
    have hd : d ∈ chain ∨ d ∈ before := by
      have hne : d ≠ first := fun heq ↦ hfirst (heq ▸ hwaits)
      simpa [hne] using hd
    obtain hd | hd := hd
    · exact (hfollowed.reverse hd he hdep).imp_left (·.trans hchain)
    obtain he' | he' := List.mem_append.1 (hperm.mem_iff.2 he)
    · refine .inl ((List.singleton_sublist.2 (List.mem_reverse.2 he')).append ?_)
      exact List.singleton_sublist.2 (List.mem_cons_of_mem first hd)
    · have hsub : rest ⊆ waiting := fun f hf ↦ hperm.mem_iff.1 (List.mem_append_right chain hf)
      refine (h.behind d hd hd' e he' hdep).imp (·.trans hbefore) fun hback ↦ ?_
      exact ReflTransGen.mono (fun _ _ (hlead : Leads rest _ _) ↦ hlead.mono hsub) _ _ hback

theorem eq_or_behind_of_append {front later : List Entry} {first : Entry}
    (h : front ++ first :: later = before ++ removal :: behind) (hr : removal ∉ front) :
    (before = front ∧ removal = first) ∨
      ∃ between, before = front ++ first :: between ∧ later = between ++ removal :: behind := by
  obtain ⟨l, rfl, hl⟩ | ⟨l, rfl, hl⟩ := List.append_eq_append_iff.1 h
  · cases l with
    | nil =>
      cases hl
      exact .inl ⟨List.append_nil front, rfl⟩
    | cons b l =>
      cases hl
      exact .inr ⟨l, rfl, rfl⟩
  · cases l with
    | nil =>
      cases hl
      exact .inl ⟨(List.append_nil before).symm, rfl⟩
    | cons b l =>
      cases hl
      exact absurd (List.mem_append_right before List.mem_cons_self) hr

/-- Every removal finds what it needs in front of it. -/
theorem prepared_of_chains (apart : waiting.Pairwise fun d e ↦ d.1 ≠ e.1)
    (disjoint : ∀ r ∈ removals, r ∉ waiting) (hr : removal ∉ waiting)
    (h : chains waiting removals = before ++ removal :: behind) :
    Prepared waiting before removal := by
  induction removals generalizing waiting before with
  | nil =>
    rw [chains] at h
    exact absurd (h ▸ List.mem_append_right before List.mem_cons_self) hr
  | cons first removals ih =>
    obtain ⟨hfirst, disjoint⟩ := List.forall_mem_cons.1 disjoint
    have hfollowed := followed apart first.2.dependent
    have hperm := follow_perm waiting first.2.dependent
    rw [chains] at h
    generalize follow waiting first.2.dependent = f at h hfollowed hperm
    have hchain : removal ∉ f.1.reverse := fun hmem ↦
      hr (hperm.mem_iff.1 (List.mem_append_left _ (List.mem_reverse.1 hmem)))
    have hrest : ∀ e ∈ f.2, e ∈ waiting := fun e he ↦
      hperm.mem_iff.1 (List.mem_append_right _ he)
    have hapart : (f.1 ++ f.2).Pairwise fun d e ↦ d.1 ≠ e.1 :=
      hperm.symm.pairwise apart fun hne ↦ Ne.symm hne
    obtain ⟨rfl, rfl⟩ | ⟨between, rfl, hlater⟩ := eq_or_behind_of_append h hchain
    · exact hfollowed.prepared
    · have hprepared := ih (List.pairwise_append.1 hapart).2.1
        (fun r hr hmem ↦ disjoint r hr (hrest r hmem)) (fun hmem ↦ hr (hrest removal hmem)) hlater
      exact hprepared.past hfollowed hperm hfirst

/-- The fix at `i` depends on the fix at `j`, which is a conditional flush. -/
def Hangs (m : FixMap) (i j : InstrId) : Prop :=
  (m.get? i).bind (·.dependent) = some j ∧ (m.get? j).map (·.kind) = some .addFlushIf

/-- The fixes of `m`, each once: the unconditional ones by instruction, then the conditional ones. All
conditional flushes that a removal leads to are in front of it, and each that depends on another is behind
that one, unless the other one leads back to it. -/
structure Ordered (m : FixMap) (l : List Entry) : Prop where
  mem_iff : ∀ i fix, (i, fix) ∈ l ↔ m.get? i = some fix
  nodup : (l.map Prod.fst).Nodup
  split : ∃ plain conditional, l = plain ++ conditional ∧
    (∀ e ∈ plain, e.2.kind.isConditional = false) ∧
    (∀ e ∈ conditional, e.2.kind.isConditional = true) ∧
    plain.Pairwise fun d e ↦ d.1.index < e.1.index
  removals : ∀ r x, (m.get? r).map (·.kind) = some .removeFlushIf → TransGen m.Hangs r x →
    [x, r].Sublist (l.map Prod.fst)
  dependents : ∀ r x y, (m.get? r).map (·.kind) = some .removeFlushIf → TransGen m.Hangs r x →
    m.Hangs x y → [y, x].Sublist (l.map Prod.fst) ∨ ReflTransGen m.Hangs y x

theorem mem_entries_iff : e ∈ m.entries ↔ m.get? e.1 = some e.2 :=
  ⟨find_of_mem m.apart_entries, mem_of_find⟩

def flushes (m : FixMap) : List Entry := m.entries.filter (·.2.kind == .addFlushIf)

theorem mem_flushes_iff : e ∈ m.flushes ↔ m.get? e.1 = some e.2 ∧ e.2.kind = .addFlushIf := by
  rw [flushes, List.mem_filter, mem_entries_iff, beq_iff_eq]

theorem hangs_iff (h : m.get? i = some fix) :
    m.Hangs i j ↔ ∃ e ∈ m.flushes, e.1 = j ∧ fix.dependent = some e.1 := by
  rw [Hangs, h]
  constructor
  · rintro ⟨hdep, hkind⟩
    obtain ⟨fix', hfix', hkind⟩ := Option.map_eq_some_iff.1 hkind
    exact ⟨(j, fix'), mem_flushes_iff.2 ⟨hfix', hkind⟩, rfl, hdep⟩
  · rintro ⟨e, he, rfl, hdep⟩
    obtain ⟨hget, hkind⟩ := mem_flushes_iff.1 he
    exact ⟨hdep, by rw [hget, Option.map_some, hkind]⟩

theorem hangs_of_leads (h : Leads m.flushes d e) : m.Hangs d.1 e.1 :=
  (hangs_iff (mem_flushes_iff.1 h.1).1).2 ⟨e, h.2.1, rfl, h.2.2⟩

theorem Prepared.mem_of_transGen (h : Prepared m.flushes before removal)
    (hget : m.get? removal.1 = some removal.2) (hreach : TransGen m.Hangs removal.1 x) :
    ∃ e ∈ m.flushes, e.1 = x ∧ e ∈ before := by
  induction hreach with
  | single hstep =>
    obtain ⟨e, he, rfl, hdep⟩ := (hangs_iff hget).1 hstep
    exact ⟨e, he, rfl, h.closed removal List.mem_cons_self e he hdep⟩
  | tail _ hstep ih =>
    obtain ⟨d, hd, rfl, hplaced⟩ := ih
    obtain ⟨e, he, rfl, hdep⟩ := (hangs_iff (mem_flushes_iff.1 hd).1).1 hstep
    exact ⟨e, he, rfl, h.closed d (List.mem_cons_of_mem removal hplaced) e he hdep⟩

theorem exists_prepared (h : (m.get? i).map (·.kind) = some .removeFlushIf) :
    ∃ before removal behind, m.conditionals = before ++ removal :: behind ∧ removal.1 = i ∧
      m.get? i = some removal.2 ∧ Prepared m.flushes before removal := by
  obtain ⟨fix, hget, hkind⟩ := Option.map_eq_some_iff.1 h
  have hremoval : (i, fix) ∈ m.entries.filter (·.2.kind == .removeFlushIf) :=
    List.mem_filter.2 ⟨mem_entries_iff.2 hget, beq_iff_eq.2 hkind⟩
  have hmem : (i, fix) ∈ m.conditionals :=
    (chains_perm _ _).mem_iff.2 (List.mem_append_right _ hremoval)
  obtain ⟨before, behind, hsplit⟩ := List.append_of_mem hmem
  have hother : ∀ r : Entry, r.2.kind = .removeFlushIf → r ∉ m.flushes := fun r hr hflush ↦ by
    rw [(mem_flushes_iff.1 hflush).2] at hr
    cases hr
  refine ⟨before, (i, fix), behind, hsplit, rfl, hget, ?_⟩
  refine prepared_of_chains (m.apart_entries.sublist List.filter_sublist) (fun r hr ↦ hother r ?_)
    (hother _ hkind) hsplit
  exact beq_iff_eq.1 (List.mem_filter.1 hr).2

theorem applicationOrder_perm (m : FixMap) : m.applicationOrder.Perm m.entries := by
  have hkinds (k : FixKind) : (k == .addFlushIf && k.isConditional) = (k == .addFlushIf) ∧
      (!(k == .addFlushIf) && k.isConditional) = (k == .removeFlushIf) := by
    cases k <;> decide
  have hconditional : (m.flushes ++ m.entries.filter (·.2.kind == .removeFlushIf)).Perm
      (m.entries.filter (·.2.kind.isConditional)) := by
    have hperm := List.filter_append_perm (fun e : Entry ↦ e.2.kind == .addFlushIf)
      (m.entries.filter (·.2.kind.isConditional))
    rw [List.filter_filter, List.filter_filter] at hperm
    simpa only [hkinds, flushes] using hperm
  calc m.applicationOrder
    _ ~ m.unconditionals ++ m.entries.filter (·.2.kind.isConditional) :=
      ((chains_perm _ _).trans hconditional).append_left _
    _ ~ m.entries.filter (·.2.kind.isConditional) ++ m.unconditionals := List.perm_append_comm
    _ ~ m.entries := List.filter_append_perm _ _

theorem unconditionals_increasing (m : FixMap) :
    m.unconditionals.Pairwise fun d e ↦ d.1.index < e.1.index :=
  (m.increasing.imp fun hlt ↦ Nat.compare_eq_lt.1 hlt).sublist List.filter_sublist

/-- Every map of fixes is put in order, also one whose chains share their ends, end at a fix that is no
conditional flush, or go round. -/
theorem applicationOrder_ordered (m : FixMap) : m.Ordered m.applicationOrder where
  mem_iff i fix := by rw [mem_applicationOrder, mem_entries_iff]
  nodup := by
    have hapart : m.applicationOrder.Pairwise fun d e ↦ d.1 ≠ e.1 :=
      (applicationOrder_perm m).symm.pairwise m.apart_entries fun hne ↦ Ne.symm hne
    exact List.pairwise_map.2 hapart
  split := ⟨m.unconditionals, m.conditionals, rfl,
    fun _ he ↦ isConditional_of_mem_unconditionals he,
    fun _ he ↦ isConditional_of_mem_conditionals he, m.unconditionals_increasing⟩
  removals r x hr hreach := by
    obtain ⟨before, removal, behind, hsplit, rfl, hget, hprepared⟩ := exists_prepared hr
    obtain ⟨e, -, rfl, hplaced⟩ := hprepared.mem_of_transGen hget hreach
    have hsub : [e, removal].Sublist m.conditionals := hsplit ▸
      (List.singleton_sublist.2 hplaced).append (List.singleton_sublist.2 List.mem_cons_self)
    exact (hsub.trans (List.sublist_append_right m.unconditionals _)).map Prod.fst
  dependents r x y hr hreach hstep := by
    obtain ⟨before, removal, behind, hsplit, rfl, hget, hprepared⟩ := exists_prepared hr
    obtain ⟨d, hd, rfl, hplaced⟩ := hprepared.mem_of_transGen hget hreach
    obtain ⟨e, he, rfl, hdep⟩ := (hangs_iff (mem_flushes_iff.1 hd).1).1 hstep
    refine (hprepared.behind d hplaced hd e he hdep).imp (fun hsub ↦ ?_) fun hback ↦
      ReflTransGen.lift Prod.fst (fun _ _ hlead ↦ hangs_of_leads hlead) e d hback
    have hbefore : before.Sublist m.conditionals := hsplit ▸ List.sublist_append_left before _
    exact ((hsub.trans hbefore).trans (List.sublist_append_right m.unconditionals _)).map Prod.fst

/-- Two removals whose chains end alike, and one whose chain goes round. -/
def entangled : FixMap :=
  .ofList [(⟨1⟩, .onto .removeFlushIf ⟨2⟩), (⟨2⟩, .onto .addFlushIf ⟨3⟩), (⟨3⟩, .onto .addFlushIf ⟨1⟩),
    (⟨4⟩, .onto .removeFlushIf ⟨5⟩), (⟨5⟩, .onto .addFlushIf ⟨3⟩), (⟨6⟩, .onto .removeFlushIf ⟨7⟩),
    (⟨7⟩, .onto .addFlushIf ⟨8⟩), (⟨8⟩, .onto .addFlushIf ⟨7⟩), (⟨9⟩, .plain .addFence)]

example : entangled.applicationOrder.map (·.1.index) = [9, 3, 2, 1, 5, 4, 8, 7, 6] := by
  decide +kernel

end Durability.FixMap
