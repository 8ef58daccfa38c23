import Mathlib.Data.List.Forall2

/-!
# Computations that may fail

Inversion of sequenced computations in `Except`, and their view in `Option`, which
forgets why a computation failed.
-/

namespace ArrayTrace

universe u v
variable {ε ε' : Type u} {α β σ : Type v}

theorem Except.bind_eq_ok {x : Except ε α} {f : α → Except ε β} {b : β} :
    x >>= f = .ok b ↔ ∃ a, x = .ok a ∧ f a = .ok b := by
  cases x with
  | error e => simp [bind, Except.bind]
  | ok a => simp [bind, Except.bind]

/-- A computation that goes on after a first result. -/
theorem Except.of_bind_eq_ok {x : Except ε α} {f : α → Except ε β} {a : α} {b : β}
    (h : x >>= f = .ok b) (hx : x = .ok a) : f a = .ok b := by
  rw [hx] at h
  exact h

theorem Except.bind_eq_error {x : Except ε α} {f : α → Except ε β} {e : ε} :
    x >>= f = .error e ↔ x = .error e ∨ ∃ a, x = .ok a ∧ f a = .error e := by
  cases x with
  | error e' => simp [bind, Except.bind]
  | ok a => simp [bind, Except.bind]

theorem Except.map_eq_ok {x : Except ε α} {f : α → β} {b : β} :
    x.map f = .ok b ↔ ∃ a, x = .ok a ∧ f a = b := by
  cases x <;> simp [Except.map]

theorem Except.mapError_eq_ok {x : Except ε α} {f : ε → ε'} {a : α} :
    x.mapError f = .ok a ↔ x = .ok a := by
  cases x <;> simp [Except.mapError]

/-- A test that refuses to go on. -/
theorem Except.unless_eq_ok {c : Prop} [Decidable c] {e : ε} {α : Type v} {k : Except ε β}
    {b : β} :
    (if c then (throw e : Except ε α) >>= fun _ => k else k) = .ok b ↔ ¬ c ∧ k = .ok b := by
  by_cases hc : c
  · rw [if_pos hc]
    refine ⟨fun h => ?_, fun h => absurd hc h.1⟩
    cases h
  · rw [if_neg hc]
    exact ⟨fun h => ⟨hc, h⟩, fun h => h.2⟩

theorem Except.forM_eq_ok {f : α → Except ε PUnit} {as : List α} :
    as.forM f = .ok ⟨⟩ ↔ ∀ a ∈ as, f a = .ok ⟨⟩ := by
  induction as with
  | nil => simp [pure, Except.pure]
  | cons a as ih =>
    have hcons : (a :: as).forM f = f a >>= fun _ => as.forM f := rfl
    rw [hcons, Except.bind_eq_ok, List.forall_mem_cons]
    exact ⟨fun ⟨_, ha, has⟩ => ⟨ha, ih.1 has⟩, fun ⟨ha, has⟩ => ⟨_, ha, ih.2 has⟩⟩

/-- A list of computations succeeds with the list of their results. -/
theorem Except.mapM_eq_ok {f : α → Except ε β} {as : List α} {bs : List β} :
    as.mapM f = .ok bs ↔ List.Forall₂ (fun a b => f a = .ok b) as bs := by
  induction as generalizing bs with
  | nil => cases bs <;> simp [pure, Except.pure]
  | cons a as ih =>
    rw [List.mapM_cons, Except.bind_eq_ok]
    constructor
    · rintro ⟨b, hb, h⟩
      obtain ⟨bs', hbs, h⟩ := Except.bind_eq_ok.1 h
      cases h
      exact .cons hb (ih.1 hbs)
    · rintro (_ | ⟨hb, hbs⟩)
      exact ⟨_, hb, Except.bind_eq_ok.2 ⟨_, ih.2 hbs, rfl⟩⟩

/-- A run over a list passes each of its elements. -/
theorem Except.foldlM_append_cons_eq_ok {f : σ → α → Except ε σ} {pre post : List α} {a : α}
    {s s' : σ} :
    (pre ++ a :: post).foldlM f s = .ok s' ↔ ∃ before after, pre.foldlM f s = .ok before ∧
      f before a = .ok after ∧ post.foldlM f after = .ok s' := by
  rw [List.foldlM_append, Except.bind_eq_ok]
  refine exists_congr fun before => ?_
  rw [List.foldlM_cons, Except.bind_eq_ok]
  exact ⟨fun ⟨h, after, h', h''⟩ => ⟨after, h, h', h''⟩,
    fun ⟨after, h, h', h''⟩ => ⟨h, after, h', h''⟩⟩

theorem exists_of_forall₂ {R : α → β → Prop} {as : List α} {bs : List β}
    (h : List.Forall₂ R as bs) {a : α} (ha : a ∈ as) : ∃ b ∈ bs, R a b := by
  induction h with
  | nil => cases ha
  | cons hab _ ih =>
    rcases List.mem_cons.1 ha with rfl | ha
    · exact ⟨_, List.mem_cons_self, hab⟩
    · obtain ⟨b, hb, hr⟩ := ih ha
      exact ⟨b, List.mem_cons_of_mem _ hb, hr⟩

/-- Whether a computation has a result. -/
def Succeeds (x : Except ε α) : Prop := ∃ a, x = .ok a

namespace Succeeds

theorem pure (a : α) : Succeeds (Pure.pure a : Except ε α) := ⟨a, rfl⟩

theorem bind {x : Except ε α} {f : α → Except ε β} (h : Succeeds x)
    (h' : ∀ a, x = .ok a → Succeeds (f a)) : Succeeds (x >>= f) := by
  obtain ⟨a, rfl⟩ := h
  exact h' a rfl

/-- A computation that goes on after a result has been found. -/
theorem bind_and {x : Except ε α} {f : α → Except ε β} {P : β → Prop} (h : Succeeds x)
    (h' : ∀ a, x = .ok a → ∃ b, f a = .ok b ∧ P b) : ∃ b, x >>= f = .ok b ∧ P b := by
  obtain ⟨a, rfl⟩ := h
  exact h' a rfl

theorem ok_bind {a : α} {f : α → Except ε β} (h : Succeeds (f a)) :
    Succeeds ((.ok a : Except ε α) >>= f) := h

theorem mapM {f : α → Except ε β} {as : List α} (h : ∀ a ∈ as, Succeeds (f a)) :
    Succeeds (as.mapM f) := by
  induction as with
  | nil => exact .pure []
  | cons a as ih =>
    rw [List.mapM_cons]
    exact (h a List.mem_cons_self).bind fun _ _ =>
      (ih fun x hx => h x (List.mem_cons_of_mem a hx)).bind fun _ _ => .pure _

end Succeeds

/-! ## Forgetting the error -/

@[simp] theorem toOption_bind (x : Except ε α) (f : α → Except ε β) :
    (x >>= f).toOption = x.toOption.bind fun a => (f a).toOption := by
  cases x <;> rfl

@[simp] theorem toOption_pure (a : α) : (pure a : Except ε α).toOption = some a := rfl

@[simp] theorem toOption_mapError (x : Except ε α) (f : ε → ε') :
    (x.mapError f).toOption = x.toOption := by
  cases x <;> rfl

theorem toOption_eq_some {x : Except ε α} {a : α} : x.toOption = some a ↔ x = .ok a := by
  cases x <;> simp [Except.toOption]

theorem toOption_mapM (f : α → Except ε β) (as : List α) :
    (as.mapM f).toOption = as.mapM fun a => (f a).toOption := by
  induction as with
  | nil => rfl
  | cons a as ih =>
    rw [List.mapM_cons, List.mapM_cons, toOption_bind]
    cases (f a).toOption with
    | none => rfl
    | some b =>
      show Option.bind (some b) _ = Option.bind (some b) _
      simp only [Option.bind_some, toOption_bind, ih]
      cases as.mapM fun a => (f a).toOption <;> rfl

theorem mapM_congr {f g : α → Option β} {as : List α} (h : ∀ a ∈ as, f a = g a) :
    as.mapM f = as.mapM g := by
  induction as with
  | nil => rfl
  | cons a as ih =>
    rw [List.mapM_cons, List.mapM_cons, h a List.mem_cons_self,
      ih fun x hx => h x (List.mem_cons_of_mem a hx)]

theorem mapM_eq_some {f : α → Option β} {as : List α} {bs : List β} :
    as.mapM f = some bs ↔ List.Forall₂ (fun a b => f a = some b) as bs := by
  induction as generalizing bs with
  | nil =>
    rw [List.mapM_nil, List.forall₂_nil_left_iff]
    exact ⟨fun h => (Option.some.inj h).symm, fun h => congrArg some h.symm⟩
  | cons a as ih =>
    rw [List.mapM_cons, List.forall₂_cons_left_iff]
    constructor
    · intro h
      obtain ⟨b, hb, h⟩ := Option.bind_eq_some_iff.1 h
      obtain ⟨bs', hbs, h⟩ := Option.bind_eq_some_iff.1 h
      cases h
      exact ⟨b, bs', hb, ih.1 hbs, rfl⟩
    · rintro ⟨b, bs', hb, hbs, rfl⟩
      exact Option.bind_eq_some_iff.2 ⟨b, hb, Option.bind_eq_some_iff.2 ⟨bs', ih.2 hbs, rfl⟩⟩

theorem exists_mapM_eq_some {f : α → Option β} {as : List α} (h : ∀ a ∈ as, ∃ b, f a = some b) :
    ∃ bs, as.mapM f = some bs := by
  induction as with
  | nil => exact ⟨[], rfl⟩
  | cons a as ih =>
    obtain ⟨b, hb⟩ := h a List.mem_cons_self
    obtain ⟨bs, hbs⟩ := ih fun x hx => h x (List.mem_cons_of_mem a hx)
    exact ⟨b :: bs, mapM_eq_some.2 (.cons hb (mapM_eq_some.1 hbs))⟩

/-- Related computations that go on in related ways. -/
theorem rel_bind {α' β' : Type v} {r : α → α' → Prop} {r' : β → β' → Prop} {x : Option α}
    {x' : Option α'} {f : α → Option β} {f' : α' → Option β'} (h : Option.Rel r x x')
    (hf : ∀ a a', r a a' → Option.Rel r' (f a) (f' a')) :
    Option.Rel r' (x.bind f) (x'.bind f') := by
  cases h with
  | none => exact .none
  | some h => exact hf _ _ h

end ArrayTrace
