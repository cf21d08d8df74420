import Mathlib.Data.List.Forall2
/-!
# Computations that may fail

A computation put together from others succeeds exactly when its parts do. These lemmas take a
success apart, so that no later proof unfolds the error monad. For computations that also change a
state, `Ends` says how they come out: with an answer of which something holds, or with a fault of a
known kind.
-/

namespace Interpose

variable {ε ε' α β : Type}

theorem bind_eq_ok {x : Except ε α} {f : α → Except ε β} {b : β} :
    (x >>= f) = .ok b ↔ ∃ a, x = .ok a ∧ f a = .ok b := by
  cases x with
  | error e => simp [bind, Except.bind]
  | ok a => simp [bind, Except.bind]

theorem bind_eq_error {x : Except ε α} {f : α → Except ε β} {e : ε} :
    (x >>= f) = .error e ↔ x = .error e ∨ ∃ a, x = .ok a ∧ f a = .error e := by
  cases x with
  | error e => simp [bind, Except.bind]
  | ok a => simp [bind, Except.bind]

theorem map_eq_ok {x : Except ε α} {f : α → β} {b : β} :
    x.map f = .ok b ↔ ∃ a, x = .ok a ∧ f a = b := by
  cases x with
  | error e => simp [Except.map]
  | ok a => simp [Except.map]

theorem mapError_eq_ok {x : Except ε α} {f : ε → ε'} {a : α} :
    x.mapError f = .ok a ↔ x = .ok a := by
  cases x with
  | error e => simp [Except.mapError]
  | ok b => simp [Except.mapError]

/-- A check of an answer shows that there is one. -/
theorem any_toOption {x : Except ε α} {p : α → Bool} :
    x.toOption.any p = true ↔ ∃ a, x = .ok a ∧ p a = true := by
  cases x with
  | error e => simp [Except.toOption]
  | ok a => simp [Except.toOption]

theorem mapM_cons_eq_ok {f : α → Except ε β} {x : α} {xs : List α} {ys : List β} :
    (x :: xs).mapM f = .ok ys ↔ ∃ y ys', f x = .ok y ∧ xs.mapM f = .ok ys' ∧ ys = y :: ys' := by
  rw [List.mapM_cons, bind_eq_ok]
  constructor
  · rintro ⟨y, hy, h⟩
    obtain ⟨ys', hys, h⟩ := bind_eq_ok.1 h
    exact ⟨y, ys', hy, hys, (Except.ok.inj h).symm⟩
  · rintro ⟨y, ys', hy, hys, rfl⟩
    exact ⟨y, hy, bind_eq_ok.2 ⟨ys', hys, rfl⟩⟩

theorem mapM_eq_ok {f : α → Except ε β} {xs : List α} {ys : List β} :
    xs.mapM f = .ok ys ↔ List.Forall₂ (fun x y => f x = .ok y) xs ys := by
  induction xs generalizing ys with
  | nil =>
    constructor
    · intro h
      cases h
      exact .nil
    · intro h
      cases h
      rfl
  | cons x xs ih =>
    rw [mapM_cons_eq_ok, List.forall₂_cons_left_iff]
    constructor
    · rintro ⟨y, ys', hy, hys, rfl⟩
      exact ⟨y, ys', hy, ih.1 hys, rfl⟩
    · rintro ⟨y, ys', hy, hys, rfl⟩
      exact ⟨y, ys', hy, ih.2 hys, rfl⟩

theorem mapM_ok {f : α → Except ε β} {xs : List α} (h : ∀ x ∈ xs, ∃ y, f x = .ok y) :
    ∃ ys, xs.mapM f = .ok ys := by
  induction xs with
  | nil => exact ⟨[], rfl⟩
  | cons x xs ih =>
    obtain ⟨y, hy⟩ := h x (List.mem_cons_self ..)
    obtain ⟨ys, hys⟩ := ih fun x hx => h x (List.mem_cons_of_mem _ hx)
    exact ⟨y :: ys, mapM_cons_eq_ok.2 ⟨y, ys, hy, hys, rfl⟩⟩

/-- A loop whose every turn succeeds does so. -/
theorem foldlM_ok {f : β → α → Except ε β} {xs : List α}
    (h : ∀ x ∈ xs, ∀ b, ∃ b', f b x = .ok b') (b : β) : ∃ b', xs.foldlM f b = .ok b' := by
  induction xs generalizing b with
  | nil => exact ⟨b, rfl⟩
  | cons x xs ih =>
    obtain ⟨b', hb⟩ := h x (List.mem_cons_self ..) b
    obtain ⟨b'', hb'⟩ := ih (fun x hx => h x (List.mem_cons_of_mem _ hx)) b'
    exact ⟨b'', by rw [List.foldlM_cons]; exact bind_eq_ok.2 ⟨b', hb, hb'⟩⟩

theorem mem_forall₂ {R : α → β → Prop} {xs : List α} {ys : List β} (h : List.Forall₂ R xs ys) :
    (∀ x ∈ xs, ∃ y ∈ ys, R x y) ∧ ∀ y ∈ ys, ∃ x ∈ xs, R x y := by
  induction h with
  | nil => exact ⟨nofun, nofun⟩
  | cons hr _ ih =>
    refine ⟨fun x hx => ?_, fun y hy => ?_⟩
    · rcases List.mem_cons.1 hx with rfl | hx
      · exact ⟨_, List.mem_cons_self .., hr⟩
      · obtain ⟨y, hy, hxy⟩ := ih.1 x hx
        exact ⟨y, List.mem_cons_of_mem _ hy, hxy⟩
    · rcases List.mem_cons.1 hy with rfl | hy
      · exact ⟨_, List.mem_cons_self .., hr⟩
      · obtain ⟨x, hx, hxy⟩ := ih.2 y hy
        exact ⟨x, List.mem_cons_of_mem _ hx, hxy⟩

theorem forall₂_imp_of_mem {R S : α → β → Prop} {xs : List α} {ys : List β}
    (h : List.Forall₂ R xs ys) (hRS : ∀ x ∈ xs, ∀ y ∈ ys, R x y → S x y) : List.Forall₂ S xs ys := by
  induction h with
  | nil => exact .nil
  | @cons x y xs ys hr _ ih =>
    exact .cons (hRS x (List.mem_cons_self ..) y (List.mem_cons_self ..) hr)
      (ih fun x' hx' y' hy' => hRS x' (List.mem_cons_of_mem _ hx') y' (List.mem_cons_of_mem _ hy'))

/-! ## Computations with a state -/

variable {σ : Type}

/-- From a state, a computation answers and leaves a state so that `post` holds of both, or it fails
with a fault of the kind `faults`. -/
def Ends (s : σ) (x : ExceptT ε (StateM σ) α) (post : α → σ → Prop) (faults : ε → Prop) : Prop :=
  match x.run.run s with
  | (.ok a, t) => post a t
  | (.error e, _) => faults e

section Ends

variable {s t : σ} {x : ExceptT ε (StateM σ) α} {f : α → ExceptT ε (StateM σ) β}
  {post : α → σ → Prop} {post' : β → σ → Prop} {faults : ε → Prop}

theorem Ends.pure {a : α} (h : post a s) : Ends s (pure a : ExceptT ε (StateM σ) α) post faults := h

theorem Ends.throw {e : ε} (h : faults e) :
    Ends s (throw e : ExceptT ε (StateM σ) α) post faults := h

theorem Ends.returns {a : α} (hx : x.run.run s = (.ok a, t)) (h : post a t) :
    Ends s x post faults := by
  unfold Ends
  rw [hx]
  exact h

theorem Ends.fails {e : ε} (hx : x.run.run s = (.error e, t)) (h : faults e) :
    Ends s x post faults := by
  unfold Ends
  rw [hx]
  exact h

theorem run_bind :
    (x >>= f).run.run s = match x.run.run s with
      | (.ok a, t) => (f a).run.run t
      | (.error e, t) => (.error e, t) := by
  rw [ExceptT.run_bind, StateT.run_bind]
  generalize x.run.run s = r
  obtain ⟨r, t⟩ := r
  cases r <;> rfl

theorem Ends.bind (hx : Ends s x post faults) (hf : ∀ a t, post a t → Ends t (f a) post' faults) :
    Ends s (x >>= f) post' faults := by
  unfold Ends at hx ⊢
  rw [run_bind]
  generalize x.run.run s = r at hx
  obtain ⟨r, t⟩ := r
  cases r with
  | ok a => exact hf a t hx
  | error e => exact hx

theorem Ends.imp {post' : α → σ → Prop} (hx : Ends s x post faults)
    (h : ∀ a t, post a t → post' a t) : Ends s x post' faults := by
  unfold Ends at hx ⊢
  generalize x.run.run s = r at hx
  obtain ⟨r, t⟩ := r
  cases r with
  | ok a => exact h a t hx
  | error e => exact hx

theorem Ends.faulty {faults' : ε → Prop} (hx : Ends s x post faults)
    (h : ∀ e, faults e → faults' e) : Ends s x post faults' := by
  unfold Ends at hx ⊢
  generalize x.run.run s = r at hx
  obtain ⟨r, t⟩ := r
  cases r with
  | ok a => exact hx
  | error e => exact h e hx

theorem Ends.of_ok (hx : Ends s x post faults) {a : α} (h : x.run.run s = (.ok a, t)) : post a t := by
  unfold Ends at hx
  rw [h] at hx
  exact hx

/-- A success of a computation in two parts, taken apart. -/
theorem run_bind_eq_ok {b : β} {u : σ} :
    (x >>= f).run.run s = (.ok b, u) ↔
      ∃ a t, x.run.run s = (.ok a, t) ∧ (f a).run.run t = (.ok b, u) := by
  rw [run_bind]
  generalize x.run.run s = r
  obtain ⟨r, t⟩ := r
  cases r with
  | ok a =>
    constructor
    · exact fun h => ⟨a, t, rfl, h⟩
    · rintro ⟨a', t', e, h⟩
      cases e
      exact h
  | error e =>
    constructor
    · intro h
      cases h
    · rintro ⟨a', t', e, -⟩
      cases e

/-- A computation whose faults are put in other words. -/
theorem adapt_run {f : ε → ε'} :
    (ExceptT.adapt f x).run.run s = match x.run.run s with
      | (.ok a, t) => (.ok a, t)
      | (.error e, t) => (.error (f e), t) := by
  have hrun : (ExceptT.adapt f x).run = Except.mapError f <$> x.run := rfl
  rw [hrun, StateT.run_map]
  generalize x.run.run s = r
  obtain ⟨r, t⟩ := r
  cases r <;> rfl

theorem adapt_eq_ok {f : ε → ε'} {a : α} :
    (ExceptT.adapt f x).run.run s = (.ok a, t) ↔ x.run.run s = (.ok a, t) := by
  rw [adapt_run]
  generalize x.run.run s = r
  obtain ⟨r, u⟩ := r
  cases r with
  | ok b =>
    constructor
    · rintro ⟨⟩
      rfl
    · rintro ⟨⟩
      rfl
  | error e => exact ⟨nofun, nofun⟩

end Ends

end Interpose
