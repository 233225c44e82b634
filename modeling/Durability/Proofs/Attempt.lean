import Durability.Fault

namespace Durability

variable {ε ε' σ α β : Type}

theorem Fault.require_eq_ok_iff {f : Fault} {b : Bool} {u : Unit} :
    require f b = .ok u ↔ b = true := by
  cases b <;> simp [require]

theorem bind_eq_ok_iff {x : Except ε α} {f : α → Except ε β} {b : β} :
    (x >>= f) = .ok b ↔ ∃ a, x = .ok a ∧ f a = .ok b := by
  cases x <;> simp [bind, Except.bind]

theorem bind_eq_error_iff {x : Except ε α} {f : α → Except ε β} {e : ε} :
    (x >>= f) = .error e ↔ x = .error e ∨ ∃ a, x = .ok a ∧ f a = .error e := by
  cases x <;> simp [bind, Except.bind]

theorem exists_bind_eq_ok {x : Except ε α} {f : α → Except ε β} {a : α} (hx : x = .ok a)
    (hf : ∃ b, f a = .ok b) : ∃ b, (x >>= f) = .ok b := by
  obtain ⟨b, hb⟩ := hf
  exact ⟨b, bind_eq_ok_iff.2 ⟨a, hx, hb⟩⟩

theorem pure_eq_ok_iff {a b : α} : (pure a : Except ε α) = .ok b ↔ a = b := by
  simp [pure, Except.pure]

theorem map_eq_ok_iff {x : Except ε α} {f : α → β} {b : β} :
    f <$> x = .ok b ↔ ∃ a, x = .ok a ∧ f a = b := by
  cases x <;> simp [Functor.map, Except.map]

theorem map_eq_error_iff {x : Except ε α} {f : α → β} {e : ε} :
    f <$> x = .error e ↔ x = .error e := by
  cases x <;> simp [Functor.map, Except.map]

theorem exists_map_eq_ok_iff {x : Except ε α} {f : α → β} :
    (∃ b, f <$> x = .ok b) ↔ ∃ a, x = .ok a := by
  cases x <;> simp [Functor.map, Except.map]

theorem mapError_eq_ok_iff {x : Except ε α} {f : ε → ε'} {a : α} :
    x.mapError f = .ok a ↔ x = .ok a := by
  cases x with
  | error e => exact ⟨fun h ↦ (nomatch h), fun h ↦ (nomatch h)⟩
  | ok b =>
    constructor
    · rintro ⟨⟩
      rfl
    · rintro ⟨⟩
      rfl

theorem forM_eq_ok_iff {l : List α} {f : α → Except ε Unit} {u : Unit} :
    l.forM f = .ok u ↔ ∀ a ∈ l, f a = .ok () := by
  induction l with
  | nil => exact iff_of_true rfl fun _ h ↦ by cases h
  | cons a l ih =>
    rw [show (a :: l).forM f = (f a >>= fun _ ↦ l.forM f) from rfl, bind_eq_ok_iff,
      List.forall_mem_cons, ← ih]
    constructor
    · rintro ⟨⟨⟩, h⟩
      exact h
    · exact fun h ↦ ⟨(), h⟩

theorem exists_cons_eq_append_iff {P Q : α → Prop} {b : α} {l : List α} :
    (∃ done a rest, b :: l = done ++ a :: rest ∧ (∀ c ∈ done, P c) ∧ Q a) ↔
      Q b ∨ P b ∧ ∃ done a rest, l = done ++ a :: rest ∧ (∀ c ∈ done, P c) ∧ Q a := by
  constructor
  · rintro ⟨done, a, rest, hl, hdone, ha⟩
    cases done with
    | nil =>
      cases hl
      exact .inl ha
    | cons c done =>
      cases hl
      obtain ⟨hb, hdone⟩ := List.forall_mem_cons.1 hdone
      exact .inr ⟨hb, done, a, rest, rfl, hdone, ha⟩
  · rintro (hb | ⟨hb, done, a, rest, rfl, hdone, ha⟩)
    · exact ⟨[], b, l, rfl, List.forall_mem_nil _, hb⟩
    · exact ⟨b :: done, a, rest, rfl, List.forall_mem_cons.2 ⟨hb, hdone⟩, ha⟩

theorem forM_eq_error_iff {l : List α} {f : α → Except ε Unit} {e : ε} :
    l.forM f = .error e ↔ ∃ done a rest, l = done ++ a :: rest ∧
      (∀ b ∈ done, f b = .ok ()) ∧ f a = .error e := by
  induction l with
  | nil => exact ⟨fun h ↦ (nomatch h), fun ⟨done, _, _, h, _⟩ ↦ by cases done <;> cases h⟩
  | cons b l ih =>
    rw [show (b :: l).forM f = (f b >>= fun _ ↦ l.forM f) from rfl, bind_eq_error_iff,
      exists_cons_eq_append_iff, ← ih]
    exact or_congr_right ⟨fun ⟨⟨⟩, h⟩ ↦ h, fun h ↦ ⟨(), h⟩⟩

theorem mapM_eq_error_iff {l : List α} {f : α → Except ε β} {e : ε} :
    l.mapM f = .error e ↔ ∃ done a rest, l = done ++ a :: rest ∧
      (∀ b ∈ done, ∃ c, f b = .ok c) ∧ f a = .error e := by
  induction l with
  | nil => exact ⟨fun h ↦ (nomatch h), fun ⟨done, _, _, h, _⟩ ↦ by cases done <;> cases h⟩
  | cons b l ih =>
    rw [List.mapM_cons, bind_eq_error_iff, exists_cons_eq_append_iff, ← ih]
    simp [bind_eq_error_iff, pure, Except.pure]

theorem exists_zipIdx_eq_append_iff {l : List α} {P Q : α × Nat → Prop} :
    (∃ done x rest, l.zipIdx = done ++ x :: rest ∧ (∀ y ∈ done, P y) ∧ Q x) ↔
      ∃ k a, l[k]? = some a ∧ (∀ j b, j < k → l[j]? = some b → P (b, j)) ∧ Q (a, k) := by
  constructor
  · rintro ⟨done, ⟨a, k⟩, rest, hl, hdone, ha⟩
    have hget : l.zipIdx[done.length]? = some (a, k) := by rw [hl]; simp
    obtain ⟨a, ha', rfl, rfl⟩ : ∃ b, l[done.length]? = some b ∧ b = a ∧ done.length = k := by
      simpa [List.getElem?_zipIdx, Prod.ext_iff] using hget
    refine ⟨_, a, ha', fun j b hj hb ↦ hdone (b, j) ?_, ha⟩
    have hget : l.zipIdx[j]? = some (b, j) := by simp [List.getElem?_zipIdx, hb]
    rw [hl, List.getElem?_append_left hj] at hget
    exact List.mem_of_getElem? hget
  · rintro ⟨k, a, ha, hdone, hQ⟩
    have hget : l.zipIdx[k]? = some (a, k) := by simp [List.getElem?_zipIdx, ha]
    obtain ⟨hk, hget⟩ := List.getElem?_eq_some_iff.1 hget
    refine ⟨l.zipIdx.take k, (a, k), l.zipIdx.drop (k + 1), ?_, fun x hx ↦ ?_, hQ⟩
    · rw [← hget, ← List.drop_eq_getElem_cons, List.take_append_drop]
    · obtain ⟨j, hj⟩ := List.mem_iff_getElem?.1 hx
      obtain ⟨hjk, b, hb, rfl⟩ : j < k ∧ ∃ b, l[j]? = some b ∧ (b, j) = x := by
        simpa [List.getElem?_take, List.getElem?_zipIdx] using hj
      exact hdone j b hjk hb

theorem foldlM_cons_eq_ok_iff {f : β → α → Except ε β} {a : α} {l : List α} {b c : β} :
    (a :: l).foldlM f b = .ok c ↔ ∃ d, f b a = .ok d ∧ l.foldlM f d = .ok c := by
  rw [List.foldlM_cons, bind_eq_ok_iff]

theorem mapM_cons_eq_ok_iff {f : α → Except ε β} {a : α} {l : List α} {l' : List β} :
    (a :: l).mapM f = .ok l' ↔ ∃ b m, f a = .ok b ∧ l.mapM f = .ok m ∧ l' = b :: m := by
  rw [List.mapM_cons]
  simp only [bind_eq_ok_iff, pure_eq_ok_iff]
  grind

theorem mapM_eq_ok {f : α → Except ε β} {l : List α} (h : ∀ a ∈ l, ∃ b, f a = .ok b) :
    ∃ l', l.mapM f = .ok l' := by
  induction l with
  | nil => exact ⟨[], rfl⟩
  | cons a l ih =>
    obtain ⟨b, hb⟩ := h a List.mem_cons_self
    obtain ⟨m, hm⟩ := ih fun c hc ↦ h c (List.mem_cons_of_mem a hc)
    exact ⟨b :: m, mapM_cons_eq_ok_iff.2 ⟨b, m, hb, hm, rfl⟩⟩

theorem exists_of_mem_mapM {f : α → Except ε β} {l : List α} {l' : List β}
    (h : l.mapM f = .ok l') {b : β} (hb : b ∈ l') : ∃ a ∈ l, f a = .ok b := by
  induction l generalizing l' with
  | nil =>
    cases h
    cases hb
  | cons a l ih =>
    obtain ⟨c, m, hc, hm, rfl⟩ := mapM_cons_eq_ok_iff.1 h
    obtain rfl | hb := List.mem_cons.1 hb
    · exact ⟨a, List.mem_cons_self, hc⟩
    · obtain ⟨d, hd, hfd⟩ := ih hm hb
      exact ⟨d, List.mem_cons_of_mem a hd, hfd⟩

theorem mem_mapM_of_mem {f : α → Except ε β} {l : List α} {l' : List β}
    (h : l.mapM f = .ok l') {a : α} (ha : a ∈ l) : ∃ b ∈ l', f a = .ok b := by
  induction l generalizing l' with
  | nil => cases ha
  | cons c l ih =>
    obtain ⟨d, m, hd, hm, rfl⟩ := mapM_cons_eq_ok_iff.1 h
    obtain rfl | ha := List.mem_cons.1 ha
    · exact ⟨d, List.mem_cons_self, hd⟩
    · obtain ⟨b, hb, hfa⟩ := ih hm ha
      exact ⟨b, List.mem_cons_of_mem d hb, hfa⟩

theorem exists_mapM_eq_ok_iff {f : α → Except ε β} {l : List α} :
    (∃ l', l.mapM f = .ok l') ↔ ∀ a ∈ l, ∃ b, f a = .ok b := by
  refine ⟨fun ⟨l', h⟩ a ha ↦ ?_, mapM_eq_ok⟩
  obtain ⟨b, -, hb⟩ := mem_mapM_of_mem h ha
  exact ⟨b, hb⟩

theorem mapM_map_eq_ok {γ : Type} {f : α → Except ε β} {g : α → Except ε γ} {φ : β → γ} {l : List α}
    {l' : List β} (hg : ∀ a ∈ l, ∀ b, f a = .ok b → g a = .ok (φ b)) (h : l.mapM f = .ok l') :
    l.mapM g = .ok (l'.map φ) := by
  induction l generalizing l' with
  | nil =>
    cases h
    rfl
  | cons a l ih =>
    obtain ⟨b, m, hb, hm, rfl⟩ := mapM_cons_eq_ok_iff.1 h
    obtain ⟨ha, hl⟩ := List.forall_mem_cons.1 hg
    exact mapM_cons_eq_ok_iff.2 ⟨φ b, m.map φ, ha b hb, ih hl hm, rfl⟩

theorem mem_of_mem_filterM {f : α → Except ε Bool} {l l' : List α} (h : l.filterM f = .ok l')
    {a : α} (ha : a ∈ l') : a ∈ l ∧ f a = .ok true := by
  have aux : ∀ {l acc l' : List α}, l.filterAuxM f acc = .ok l' →
      ∀ a ∈ l', a ∈ l ∧ f a = .ok true ∨ a ∈ acc := by
    intro l
    induction l with
    | nil =>
      intro acc l' h a ha
      cases h
      exact .inr ha
    | cons b l ih =>
      intro acc l' h a ha
      obtain ⟨c, hc, h⟩ := bind_eq_ok_iff.1 h
      obtain ⟨hl, hf⟩ | hacc := ih h a ha
      · exact .inl ⟨List.mem_cons_of_mem b hl, hf⟩
      · cases c with
        | false => exact .inr hacc
        | true =>
          obtain rfl | hacc := List.mem_cons.1 hacc
          · exact .inl ⟨List.mem_cons_self, hc⟩
          · exact .inr hacc
  obtain ⟨m, hm, h⟩ := bind_eq_ok_iff.1 h
  cases pure_eq_ok_iff.1 h
  exact (aux hm a (List.mem_reverse.1 ha)).resolve_right List.not_mem_nil

theorem sublist_of_filterM {f : α → Except ε Bool} {l l' : List α} (h : l.filterM f = .ok l') :
    l'.Sublist l := by
  have aux : ∀ {l acc l' : List α}, l.filterAuxM f acc = .ok l' →
      ∃ kept : List α, l' = kept.reverse ++ acc ∧ kept.Sublist l := by
    intro l
    induction l with
    | nil =>
      intro acc l' h
      cases h
      exact ⟨[], rfl, .slnil⟩
    | cons a l ih =>
      intro acc l' h
      obtain ⟨b, -, h⟩ := bind_eq_ok_iff.1 h
      obtain ⟨kept, rfl, hkept⟩ := ih h
      cases b with
      | false => exact ⟨kept, rfl, hkept.cons a⟩
      | true => exact ⟨a :: kept, by simp, hkept.cons_cons a⟩
  obtain ⟨m, hm, h⟩ := bind_eq_ok_iff.1 h
  cases pure_eq_ok_iff.1 h
  obtain ⟨kept, rfl, hkept⟩ := aux hm
  rwa [List.append_nil, List.reverse_reverse]

/-- Every error of `x` is one that `E` expects. -/
def FailsOnly (E : ε → Prop) (x : Except ε α) : Prop := ∀ e, x = .error e → E e

namespace FailsOnly

variable {E : ε → Prop} {x : Except ε α}

theorem of_ok (h : ∃ a, x = .ok a) : FailsOnly E x := by
  obtain ⟨a, rfl⟩ := h
  exact nofun

theorem exists_eq_ok (h : FailsOnly (fun _ ↦ False) x) : ∃ a, x = .ok a := by
  cases x with
  | error e => exact (h e rfl).elim
  | ok a => exact ⟨a, rfl⟩

theorem error {e : ε} (h : E e) : FailsOnly E (.error e : Except ε α) := by
  intro e' he
  cases he
  exact h

theorem bind {f : α → Except ε β} (hx : FailsOnly E x)
    (hf : ∀ a, x = .ok a → FailsOnly E (f a)) : FailsOnly E (x >>= f) := by
  cases x with
  | error e => exact error (hx e rfl)
  | ok a => exact hf a rfl

theorem map {f : α → β} (hx : FailsOnly E x) : FailsOnly E (f <$> x) := by
  cases x with
  | error e => exact error (hx e rfl)
  | ok a => exact of_ok ⟨f a, rfl⟩

theorem foldlM {f : β → α → Except ε β} {l : List α} (h : ∀ b, ∀ a ∈ l, FailsOnly E (f b a))
    (b : β) : FailsOnly E (l.foldlM f b) := by
  induction l generalizing b with
  | nil => exact of_ok ⟨b, rfl⟩
  | cons a l ih =>
    rw [List.foldlM_cons]
    refine bind (h b a List.mem_cons_self) fun c _ ↦ ?_
    exact ih (fun d e he ↦ h d e (List.mem_cons_of_mem a he)) c

theorem forM {f : α → Except ε Unit} {l : List α} (h : ∀ a ∈ l, FailsOnly E (f a)) :
    FailsOnly E (l.forM f) := by
  induction l with
  | nil => exact of_ok ⟨(), rfl⟩
  | cons a l ih =>
    obtain ⟨ha, hl⟩ := List.forall_mem_cons.1 h
    exact bind ha fun _ _ ↦ ih hl

theorem filterM {f : α → Except ε Bool} {l : List α} (h : ∀ a ∈ l, FailsOnly E (f a)) :
    FailsOnly E (l.filterM f) := by
  have aux : ∀ {l acc : List α}, (∀ a ∈ l, FailsOnly E (f a)) →
      FailsOnly E (l.filterAuxM f acc) := by
    intro l
    induction l with
    | nil => exact fun _ ↦ of_ok ⟨_, rfl⟩
    | cons a l ih =>
      intro acc h
      obtain ⟨ha, hl⟩ := List.forall_mem_cons.1 h
      exact bind ha fun _ _ ↦ ih hl
  exact bind (aux h) fun m _ ↦ of_ok ⟨m.reverse, rfl⟩

variable {E : Failure ε → Prop}

theorem lift {x : Except Fault α} (h : FailsOnly (fun f ↦ E (.fault f)) x) :
    FailsOnly E (liftM x : Attempt ε α) := by
  cases x with
  | ok a => exact of_ok ⟨a, rfl⟩
  | error f => exact error (h f rfl)

theorem lift_ok {x : Except Fault α} (h : ∃ a, x = .ok a) : FailsOnly E (liftM x : Attempt ε α) :=
  lift (of_ok h)

theorem ofExcept {x : Except ε α} (h : FailsOnly (fun cause ↦ E (.refused cause)) x) :
    FailsOnly E (Attempt.ofExcept x) := by
  cases x with
  | ok a => exact of_ok ⟨a, rfl⟩
  | error cause => exact error (h cause rfl)

theorem refuseIf {b : Bool} {cause : ε} (h : E (.refused cause)) :
    FailsOnly E (Attempt.refuseIf b cause) := by
  cases b with
  | true => exact error h
  | false => exact of_ok ⟨(), rfl⟩

end FailsOnly

namespace Attempt

instance {ε α : Type} (x : Attempt ε α) : Decidable (∀ fault, x ≠ .error (.fault fault)) :=
  match x with
  | .ok _ | .error (.refused _) => isTrue nofun
  | .error (.fault fault) => isFalse fun h ↦ h fault rfl

theorem lift_eq_ok_iff {x : Except Fault α} {a : α} :
    (liftM x : Attempt ε α) = .ok a ↔ x = .ok a := by
  cases x <;> simp [liftM, monadLift, MonadLift.monadLift, lift]

theorem lift_eq_error_iff {x : Except Fault α} {e : Failure ε} :
    (liftM x : Attempt ε α) = .error e ↔ ∃ f, x = .error f ∧ e = .fault f := by
  cases x <;> simp [liftM, monadLift, MonadLift.monadLift, lift, eq_comm]

theorem refuseIf_eq_ok_iff {b : Bool} {cause : ε} {u : Unit} :
    refuseIf b cause = .ok u ↔ b = false := by
  cases b <;> simp [refuseIf, refuse]

theorem ofExcept_eq_ok_iff {x : Except ε α} {a : α} : ofExcept x = .ok a ↔ x = .ok a := by
  cases x <;> simp [ofExcept]

theorem mapCause_eq_ok_iff {x : Attempt ε α} {f : ε → ε'} {a : α} :
    mapCause f x = .ok a ↔ x = .ok a := by
  cases x <;> simp [mapCause]

theorem mapCause_eq_error_iff {x : Attempt ε α} {f : ε → ε'} {e : Failure ε'} :
    mapCause f x = .error e ↔ ∃ e', x = .error e' ∧ e'.mapCause f = e := by
  cases x <;> simp [mapCause]

end Attempt

namespace Stateful

variable {s t : σ}

theorem bind_apply (x : Stateful σ ε α) (f : α → Stateful σ ε β) (s : σ) :
    (x >>= f) s = match x s with
      | (.ok a, r) => f a r
      | (.error e, r) => (.error e, r) := by
  change (match x s with | (a, r) => ExceptT.bindCont f a r) = _
  rcases x s with ⟨_ | _, _⟩ <;> rfl

theorem bind_eq_ok_iff {x : Stateful σ ε α} {f : α → Stateful σ ε β} {b : β} :
    (x >>= f) s = (.ok b, t) ↔ ∃ a r, x s = (.ok a, r) ∧ f a r = (.ok b, t) := by
  rw [bind_apply]
  rcases x s with ⟨_ | a, r⟩
  · refine ⟨fun h ↦ (nomatch h), ?_⟩
    rintro ⟨_, _, h, _⟩
    cases h
  · refine ⟨fun h ↦ ⟨a, r, rfl, h⟩, ?_⟩
    rintro ⟨_, _, h, h'⟩
    cases h
    exact h'

theorem bind_eq_error_iff {x : Stateful σ ε α} {f : α → Stateful σ ε β} {e : Failure ε} :
    (x >>= f) s = (.error e, t) ↔
      x s = (.error e, t) ∨ ∃ a r, x s = (.ok a, r) ∧ f a r = (.error e, t) := by
  rw [bind_apply]
  rcases x s with ⟨_ | a, r⟩
  · constructor
    · intro h
      cases h
      exact .inl rfl
    · intro h
      obtain h | ⟨_, _, h, -⟩ := h
      · cases h
        rfl
      · cases h
  · refine ⟨fun h ↦ .inr ⟨a, r, rfl, h⟩, fun h ↦ ?_⟩
    obtain h | ⟨_, _, h, h'⟩ := h
    · cases h
    · cases h
      exact h'

theorem discard_eq_ok_iff {x : Stateful σ ε α} {u : Unit} :
    discard x s = (.ok u, t) ↔ ∃ a, x s = (.ok a, t) := by
  rw [show discard x = (x >>= fun _ ↦ pure ()) from rfl, bind_eq_ok_iff]
  constructor
  · rintro ⟨a, r, hx, h⟩
    cases h
    exact ⟨a, hx⟩
  · rintro ⟨a, hx⟩
    exact ⟨a, t, hx, rfl⟩

theorem discard_eq_error_iff {x : Stateful σ ε α} {e : Failure ε} :
    discard x s = (.error e, t) ↔ x s = (.error e, t) := by
  rw [show discard x = (x >>= fun _ ↦ pure ()) from rfl, bind_eq_error_iff]
  constructor
  · intro h
    obtain h | ⟨_, _, -, h⟩ := h
    · exact h
    · cases h
  · exact .inl

theorem lift_eq_ok_iff {x : Attempt ε α} {a : α} :
    (liftM x : Stateful σ ε α) s = (.ok a, t) ↔ x = .ok a ∧ s = t := by
  change (x, s) = (.ok a, t) ↔ _
  rw [Prod.mk.injEq]

theorem liftFault_eq_ok_iff {x : Except Fault α} {a : α} :
    (liftM x : Stateful σ ε α) s = (.ok a, t) ↔ x = .ok a ∧ s = t := by
  change (Attempt.lift x, s) = (.ok a, t) ↔ _
  cases x <;> simp [Attempt.lift]

theorem lift_ok_bind (a : α) (f : α → Stateful σ ε β) :
    ((liftM (Except.ok a : Attempt ε α) : Stateful σ ε α) >>= f) = f a := rfl

theorem liftFault_ok_bind (a : α) (f : α → Stateful σ ε β) :
    ((liftM (Except.ok a : Except Fault α) : Stateful σ ε α) >>= f) = f a := rfl

theorem get_bind_apply (f : σ → Stateful σ ε α) (s : σ) : (get >>= f) s = f s s := rfl

theorem modifyGet_bind_apply (g : σ → α × σ) (f : α → Stateful σ ε β) (s : σ) :
    (modifyGet g >>= f) s = f (g s).1 (g s).2 := rfl

theorem get_eq_ok_iff {r : σ} : (get : Stateful σ ε σ) s = (.ok r, t) ↔ r = s ∧ t = s := by
  change (Except.ok s, s) = (Except.ok r, t) ↔ _
  rw [Prod.mk.injEq, Except.ok.injEq, eq_comm, eq_comm (a := s)]

theorem modifyGet_eq_ok_iff {g : σ → α × σ} {a : α} :
    (modifyGet g : Stateful σ ε α) s = (.ok a, t) ↔ g s = (a, t) := by
  change (Except.ok (g s).1, (g s).2) = (Except.ok a, t) ↔ _
  rw [Prod.mk.injEq, Except.ok.injEq, Prod.ext_iff]

theorem map_eq_ok_iff {x : Stateful σ ε α} {f : α → β} {b : β} :
    (f <$> x) s = (.ok b, t) ↔ ∃ a, x s = (.ok a, t) ∧ f a = b := by
  rw [← bind_pure_comp, bind_eq_ok_iff]
  constructor
  · rintro ⟨a, r, hx, h⟩
    cases h
    exact ⟨a, hx, rfl⟩
  · rintro ⟨a, hx, rfl⟩
    exact ⟨a, t, hx, rfl⟩

theorem map_eq_error_iff {x : Stateful σ ε α} {f : α → β} {e : Failure ε} :
    (f <$> x) s = (.error e, t) ↔ x s = (.error e, t) := by
  rw [← bind_pure_comp, bind_eq_error_iff]
  constructor
  · rintro (h | ⟨_, _, -, h⟩)
    · exact h
    · cases h
  · exact .inl

theorem mapCause_apply (g : ε → ε') (x : Stateful σ ε α) (s : σ) :
    mapCause g x s = (Attempt.mapCause g (x s).1, (x s).2) := rfl

theorem mapCause_eq_ok_iff {x : Stateful σ ε α} {g : ε → ε'} {a : α} :
    mapCause g x s = (.ok a, t) ↔ x s = (.ok a, t) := by
  rw [mapCause_apply, Prod.mk.injEq, Attempt.mapCause_eq_ok_iff, Prod.ext_iff]

theorem mapCause_eq_error_iff {x : Stateful σ ε α} {g : ε → ε'} {e : Failure ε'} :
    mapCause g x s = (.error e, t) ↔ ∃ e', x s = (.error e', t) ∧ e'.mapCause g = e := by
  rw [mapCause_apply, Prod.mk.injEq, Attempt.mapCause_eq_error_iff, exists_and_right.symm]
  exact exists_congr fun e' ↦ by rw [Prod.ext_iff (x := x s), and_right_comm]

theorem attempt_eq_ok_iff {x : Stateful σ ε α} {a : α} :
    x.attempt s = .ok (a, t) ↔ x s = (.ok a, t) := by
  rw [attempt]
  rcases x s with ⟨_ | _, _⟩
  · exact ⟨fun h ↦ (nomatch h), fun h ↦ (nomatch h)⟩
  · exact ⟨fun h ↦ by cases h; rfl, fun h ↦ by cases h; rfl⟩

theorem attempt_eq_error_iff {x : Stateful σ ε α} {e : Failure ε} :
    x.attempt s = .error e ↔ ∃ t, x s = (.error e, t) := by
  rw [attempt]
  rcases x s with ⟨_ | _, t⟩
  · exact ⟨fun h ↦ ⟨t, by cases h; rfl⟩, fun ⟨_, h⟩ ↦ by cases h; rfl⟩
  · exact ⟨fun h ↦ (nomatch h), fun ⟨_, h⟩ ↦ (nomatch h)⟩

theorem attempt_get_bind (f : σ → Stateful σ ε α) (s : σ) :
    (get >>= f).attempt s = (f s).attempt s := rfl

theorem attempt_lift_bind (x : Attempt ε α) (f : α → Stateful σ ε β) (s : σ) :
    ((liftM x : Stateful σ ε α) >>= f).attempt s = x >>= fun a ↦ (f a).attempt s := by
  cases x <;> rfl

theorem attempt_liftFault_bind (x : Except Fault α) (f : α → Stateful σ ε β) (s : σ) :
    ((liftM x : Stateful σ ε α) >>= f).attempt s =
      (liftM x : Attempt ε α) >>= fun a ↦ (f a).attempt s := by
  cases x <;> rfl

theorem attempt_mapCause (x : Stateful σ ε α) (g : ε → ε') (s : σ) :
    (mapCause g x).attempt s = Attempt.mapCause g (x.attempt s) := by
  rw [attempt, attempt, mapCause]
  rcases x s with ⟨_ | _, _⟩ <;> rfl

/-- If `x` fails from `s` on, it has changed nothing. -/
def Atomic (x : Stateful σ ε α) (s : σ) : Prop := ∀ e t, x s = (.error e, t) → t = s

namespace Atomic

variable {x : Stateful σ ε α} {f : α → Stateful σ ε β}

theorem of_ok {a : α} (h : x s = (.ok a, t)) : Atomic x s := by
  intro e r he
  rw [h] at he
  cases he

theorem throw (e : Failure ε) : Atomic (throw e : Stateful σ ε α) s := by
  intro e' r he
  cases he
  rfl

theorem liftFault (x : Except Fault α) : Atomic (liftM x : Stateful σ ε α) s := by
  intro e r he
  cases x <;> cases he
  rfl

theorem get_bind {f : σ → Stateful σ ε β} (h : Atomic (f s) s) : Atomic (get >>= f) s := h

theorem lift_bind {y : Attempt ε α} (h : ∀ a, y = .ok a → Atomic (f a) s) :
    Atomic ((liftM y : Stateful σ ε α) >>= f) s := by
  cases y with
  | error e => exact throw e
  | ok a => exact h a rfl

theorem liftFault_bind {y : Except Fault α} (h : ∀ a, y = .ok a → Atomic (f a) s) :
    Atomic ((liftM y : Stateful σ ε α) >>= f) s := by
  cases y with
  | error e => exact throw (.fault e)
  | ok a => exact h a rfl

theorem map {g : α → β} (h : Atomic x s) : Atomic (g <$> x) s :=
  fun e t he ↦ h e t (map_eq_error_iff.1 he)

theorem mapCause {g : ε → ε'} (h : Atomic x s) : Atomic (mapCause g x) s := by
  intro e t he
  obtain ⟨e', hx, -⟩ := mapCause_eq_error_iff.1 he
  exact h e' t hx

end Atomic

theorem modify_eq_ok_iff {g : σ → σ} {u : Unit} :
    (modify g : Stateful σ ε Unit) s = (.ok u, t) ↔ g s = t := by
  refine modifyGet_eq_ok_iff.trans ?_
  rw [Prod.mk.injEq]
  exact and_iff_right rfl

theorem exists_of_forM_eq_error {f : α → Stateful σ ε Unit} {l : List α} {e : Failure ε}
    (h : (l.forM f) s = (.error e, t)) : ∃ done a rest r, l = done ++ a :: rest ∧
      (done.forM f) s = (.ok (), r) ∧ f a r = (.error e, t) := by
  induction l generalizing s with
  | nil => cases h
  | cons a l ih =>
    obtain ha | ⟨⟨⟩, r, ha, hrest⟩ := bind_eq_error_iff.1 h
    · exact ⟨[], a, l, s, rfl, rfl, ha⟩
    · obtain ⟨done, b, rest, r', rfl, hdone, hb⟩ := ih hrest
      exact ⟨a :: done, b, rest, r', rfl, bind_eq_ok_iff.2 ⟨(), r, ha, hdone⟩, hb⟩

/-- Whatever comes of `x`, it keeps what `P` says of the state. -/
def Preserves (P : σ → Prop) (x : Stateful σ ε α) : Prop := ∀ s, P s → P (x s).2

namespace Preserves

variable {P : σ → Prop} {x : Stateful σ ε α} {f : α → Stateful σ ε β}

theorem bind (hx : Preserves P x) (hf : ∀ a, Preserves P (f a)) : Preserves P (x >>= f) := by
  intro s hs
  have hr := hx s hs
  rw [bind_apply]
  rcases h : x s with ⟨_ | a, r⟩
  · rw [h] at hr
    exact hr
  · rw [h] at hr
    exact hf a r hr

theorem pure (a : α) : Preserves P (pure a : Stateful σ ε α) := fun _ hs ↦ hs

theorem throw (e : Failure ε) : Preserves P (throw e : Stateful σ ε α) := fun _ hs ↦ hs

theorem lift (x : Attempt ε α) : Preserves P (liftM x : Stateful σ ε α) := fun _ hs ↦ hs

theorem liftFault (x : Except Fault α) : Preserves P (liftM x : Stateful σ ε α) := fun _ hs ↦ hs

theorem lift_bind {y : Attempt ε α} (hf : ∀ a, y = .ok a → Preserves P (f a)) :
    Preserves P ((liftM y : Stateful σ ε α) >>= f) := by
  cases y with
  | error e => exact fun _ hs ↦ hs
  | ok a => exact hf a rfl

theorem modifyGet {g : σ → α × σ} (h : ∀ s, P s → P (g s).2) :
    Preserves P (modifyGet g : Stateful σ ε α) := h

theorem of_atomic (hx : ∀ s, Atomic x s) (h : ∀ s a t, P s → x.attempt s = .ok (a, t) → P t) :
    Preserves P x := by
  intro s hs
  rcases hr : x s with ⟨e | a, t⟩
  · rwa [hx s e t hr]
  · exact h s a t hs (attempt_eq_ok_iff.2 hr)

theorem forM {g : α → Stateful σ ε Unit} {l : List α} (hg : ∀ a ∈ l, Preserves P (g a)) :
    Preserves P (l.forM g) := by
  induction l with
  | nil => exact pure ()
  | cons a l ih =>
    obtain ⟨ha, hl⟩ := List.forall_mem_cons.1 hg
    exact bind ha fun _ ↦ ih hl

theorem foldlM {g : β → α → Stateful σ ε β} {l : List α} (hg : ∀ b, ∀ a ∈ l, Preserves P (g b a))
    (b : β) : Preserves P (l.foldlM g b) := by
  induction l generalizing b with
  | nil => exact pure b
  | cons a l ih =>
    exact bind (hg b a List.mem_cons_self) fun c ↦
      ih (fun c d hd ↦ hg c d (List.mem_cons_of_mem a hd)) c

end Preserves

/-- From `s` on, `x` fails only as `E` expects, and otherwise its result and its state have `Q`. -/
structure Meets (E : Failure ε → Prop) (x : Stateful σ ε α) (s : σ) (Q : α → σ → Prop) : Prop where
  error : ∀ e r, x s = (.error e, r) → E e
  ok : ∀ a r, x s = (.ok a, r) → Q a r

namespace Meets

variable {E : Failure ε → Prop} {x : Stateful σ ε α} {Q : α → σ → Prop}

theorem bind {f : α → Stateful σ ε β} {R : β → σ → Prop} (hx : Meets E x s Q)
    (hf : ∀ a r, Q a r → Meets E (f a) r R) : Meets E (x >>= f) s R := by
  rcases h : x s with ⟨e | a, r⟩
  · constructor
    · intro e' r' he
      rw [bind_apply, h] at he
      cases he
      exact hx.error e r h
    · intro b r' hb
      rw [bind_apply, h] at hb
      cases hb
  · have hfa := hf a r (hx.ok a r h)
    constructor
    · intro e' r' he
      rw [bind_apply, h] at he
      exact hfa.error e' r' he
    · intro b r' hb
      rw [bind_apply, h] at hb
      exact hfa.ok b r' hb

theorem pure {a : α} (h : Q a s) : Meets E (pure a : Stateful σ ε α) s Q :=
  ⟨fun _ _ he ↦ (nomatch he), fun b r hb ↦ by cases hb; exact h⟩

theorem lift {x : Attempt ε α} (hx : FailsOnly E x) (h : ∀ a, x = .ok a → Q a s) :
    Meets E (liftM x : Stateful σ ε α) s Q := by
  constructor
  · intro e r he
    cases he
    exact hx e rfl
  · intro a r ha
    cases ha
    exact h a rfl

theorem liftFault {x : Except Fault α} (hx : FailsOnly (fun f ↦ E (.fault f)) x)
    (h : ∀ a, x = .ok a → Q a s) : Meets E (liftM x : Stateful σ ε α) s Q :=
  lift (FailsOnly.lift hx) fun a ha ↦ h a (Attempt.lift_eq_ok_iff.1 ha)

theorem lift_bind {x : Attempt ε α} {f : α → Stateful σ ε β} {R : β → σ → Prop}
    (hx : FailsOnly E x) (hf : ∀ a, x = .ok a → Meets E (f a) s R) :
    Meets E ((liftM x : Stateful σ ε α) >>= f) s R := by
  refine bind (Q := fun a r ↦ x = .ok a ∧ r = s) (lift hx fun a ha ↦ ⟨ha, rfl⟩) fun a r hr ↦ ?_
  obtain ⟨ha, rfl⟩ := hr
  exact hf a ha

theorem liftFault_bind {x : Except Fault α} {f : α → Stateful σ ε β} {R : β → σ → Prop}
    (hx : FailsOnly (fun f ↦ E (.fault f)) x) (hf : ∀ a, x = .ok a → Meets E (f a) s R) :
    Meets E ((liftM x : Stateful σ ε α) >>= f) s R :=
  lift_bind (FailsOnly.lift hx) fun a ha ↦ hf a (Attempt.lift_eq_ok_iff.1 ha)

theorem modifyGet {g : σ → α × σ} (h : Q (g s).1 (g s).2) :
    Meets E (modifyGet g : Stateful σ ε α) s Q :=
  ⟨fun _ _ he ↦ (nomatch he), fun a r ha ↦ by cases ha; exact h⟩

theorem of_attempt (hx : FailsOnly E (x.attempt s))
    (h : ∀ a r, x.attempt s = .ok (a, r) → Q a r) : Meets E x s Q :=
  ⟨fun e r he ↦ hx e (attempt_eq_error_iff.2 ⟨r, he⟩), fun a r ha ↦ h a r (attempt_eq_ok_iff.2 ha)⟩

theorem forM {I : σ → Prop} {g : α → Stateful σ ε Unit} {l : List α}
    (hg : ∀ a ∈ l, ∀ r, I r → Meets E (g a) r fun _ ↦ I) (hs : I s) :
    Meets E (l.forM g) s fun _ ↦ I := by
  induction l generalizing s with
  | nil => exact pure hs
  | cons a l ih =>
    obtain ⟨ha, hl⟩ := List.forall_mem_cons.1 hg
    exact bind (ha s hs) fun _ r hr ↦ ih hl hr

theorem foldlM {I : β → σ → Prop} {g : β → α → Stateful σ ε β} {l : List α}
    (hg : ∀ b r, I b r → ∀ a ∈ l, Meets E (g b a) r I) {b : β} (hb : I b s) :
    Meets E (l.foldlM g b) s I := by
  induction l generalizing b s with
  | nil => exact pure hb
  | cons a l ih =>
    rw [List.foldlM_cons]
    refine bind (hg b s hb a List.mem_cons_self) fun c r hc ↦ ?_
    exact ih (fun d r hd e he ↦ hg d r hd e (List.mem_cons_of_mem a he)) hc

end Meets

end Stateful

end Durability
