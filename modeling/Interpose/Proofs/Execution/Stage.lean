import Interpose.Proofs.Execution.Platform
import Interpose.Proofs.Weave.Places
/-!
# Running templates

Templates are run where they stand in a body (`Stage`). `Does` says that templates take one store to
another wherever they stand, without an instruction of the method among them, and is put together from
single templates (`Does.one`, `Does.append`) and branches (`Stage.passes_jump`).
-/

namespace Interpose

/-- A body made of templates, in which every label from a number on is placed once. -/
structure Stage where
  pool : Pool
  body : Body
  code : List Template
  settled : Template.SettleAll pool code body.insns
  bound : Nat
  placed : ∀ k l : Nat, bound ≤ l → code[k]? = some (.place l) → LastPlace body.insns l k
  /-- Whether an instruction belongs to a report. -/
  skips : Nat → Prop

namespace Stage

variable {P : Platform} {σ : Stage}

/-- A run through reports alone, from one instruction and store to others. -/
inductive Passes (P : Platform) (σ : Stage) : Nat → P.Store → Nat → P.Store → Prop
  | refl {i s} : Passes P σ i s i s
  | step {i j k s t u} : σ.skips i → P.step σ.pool σ.body i s = .running j t → Passes P σ j t k u →
    Passes P σ i s k u

theorem Passes.trans {i j k : Nat} {s t u : P.Store} (h : Passes P σ i s j t)
    (h' : Passes P σ j t k u) : Passes P σ i s k u := by
  induction h with
  | refl => exact h'
  | step hi hs _ ih => exact .step hi hs (ih h')

/-- A run that comes to another status through reports alone. -/
inductive Comes (P : Platform) (σ : Stage) : P.Status → P.Status → Prop
  | refl {a} : Comes P σ a a
  | step {i s a} : σ.skips i → Comes P σ (P.step σ.pool σ.body i s) a → Comes P σ (.running i s) a

theorem Passes.comes {i j : Nat} {s t : P.Store} {a : P.Status} (h : Passes P σ i s j t)
    (h' : Comes P σ (.running j t) a) : Comes P σ (.running i s) a := by
  induction h with
  | refl => exact h'
  | step hi hs _ ih => exact .step hi (by rw [hs]; exact ih h')

def Has (σ : Stage) (k : Nat) (ts : List Template) : Prop :=
  ∀ (j : Nat) (t : Template), ts[j]? = some t → σ.code[k + j]? = some t

theorem Has.append_left {k : Nat} {ts ts' : List Template} (h : σ.Has k (ts ++ ts')) :
    σ.Has k ts := by
  intro j t hj
  have hlt := (List.getElem?_eq_some_iff.1 hj).1
  exact h j t (by rw [List.getElem?_append_left hlt, hj])

theorem Has.append_right {k : Nat} {ts ts' : List Template} (h : σ.Has k (ts ++ ts')) :
    σ.Has (k + ts.length) ts' := by
  intro j t hj
  rw [Nat.add_assoc]
  exact h _ t (by rw [List.getElem?_append_right (Nat.le_add_right _ _), Nat.add_sub_cancel_left, hj])

theorem Has.head {k : Nat} {t : Template} {ts : List Template} (h : σ.Has k (t :: ts)) :
    σ.code[k]? = some t := h 0 t rfl

theorem Has.tail {k : Nat} {t : Template} {ts : List Template} (h : σ.Has k (t :: ts)) :
    σ.Has (k + 1) ts :=
  show σ.Has (k + [t].length) ts from Has.append_right h

def JumpsTo (P : Platform) (q : Pool) (t : Template) (s : P.Store) (l : Label) (u : P.Store) : Prop :=
  ∀ i, t.Settles q i → P.act q i s = .jump l u

def GoesOn (P : Platform) (q : Pool) (t : Template) (s u : P.Store) : Prop :=
  ∀ i, t.Settles q i → P.act q i s = .next u ∧ i.isTerminal = false

theorem passes_next {k j : Nat} {s t u : P.Store} {x : Template} (hk : σ.code[k]? = some x)
    (hskip : σ.skips k) (hx : GoesOn P σ.pool x s t) (h : Passes P σ (k + 1) t j u) :
    Passes P σ k s j u := by
  obtain ⟨i, hi, hsettles⟩ := forall₂_getElem? σ.settled hk
  obtain ⟨hact, hon⟩ := hx i hsettles
  refine .step hskip ?_ h
  simp only [Platform.step, hi, hact, hon, Bool.false_eq_true, if_false]

/-- A template that jumps to a label of a report. -/
theorem passes_jump {k m j : Nat} {l : Nat} {s t u : P.Store} {x : Template}
    (hk : σ.code[k]? = some x) (hskip : σ.skips k) (hx : JumpsTo P σ.pool x s l t)
    (hl : σ.bound ≤ l) (hm : σ.code[m]? = some (.place l)) (h : Passes P σ m t j u) :
    Passes P σ k s j u := by
  obtain ⟨i, hi, hsettles⟩ := forall₂_getElem? σ.settled hk
  have hplace := labelPositions_eq_some.2 (σ.placed m l hl hm)
  refine .step hskip ?_ h
  simp only [Platform.step, hi, hx i hsettles, hplace]

/-- Wherever the templates stand in reports, they take one store to another. -/
def Does (P : Platform) (σ : Stage) (ts : List Template) (s t : P.Store) : Prop :=
  ∀ k, σ.Has k ts → (∀ j < ts.length, σ.skips (k + j)) → Passes P σ k s (k + ts.length) t

theorem Does.nil {s : P.Store} : Does P σ [] s s := fun _ _ _ => .refl

theorem Does.append {ts ts' : List Template} {s t u : P.Store} (h : Does P σ ts s t)
    (h' : Does P σ ts' t u) : Does P σ (ts ++ ts') s u := by
  intro k hk hskip
  rw [List.length_append] at hskip ⊢
  rw [← Nat.add_assoc]
  refine (h k hk.append_left fun j hj => hskip j (by omega)).trans
    (h' _ hk.append_right fun j hj => ?_)
  rw [Nat.add_assoc]
  exact hskip _ (by omega)

theorem Does.one {x : Template} {s t : P.Store} (h : GoesOn P σ.pool x s t) :
    Does P σ [x] s t :=
  fun _ hk hskip => passes_next hk.head (hskip 0 Nat.one_pos) h .refl

theorem Does.cons {x : Template} {ts : List Template} {s t u : P.Store}
    (h : GoesOn P σ.pool x s t) (h' : Does P σ ts t u) : Does P σ (x :: ts) s u :=
  Does.append (.one h) h'

/-! ## Single templates -/

section Single

variable {q : Pool} {s : P.Store}

theorem jumpsTo_plain {i : Insn} {l : Label} {t : P.Store} (h : P.act q i s = .jump l t) :
    JumpsTo P q (.plain i) s l t := by
  intro j hj
  cases hj
  exact h

theorem goesOn_plain {i : Insn} {t : P.Store} (h : P.act q i s = .next t)
    (hi : i.isTerminal = false) : GoesOn P q (.plain i) s t := by
  intro j hj
  cases hj
  exact ⟨h, hi⟩

theorem goesOn_place (l : Label) : GoesOn P q (.place l) s s :=
  goesOn_plain rfl rfl

theorem goesOn_pushInt (n : Int32) : GoesOn P q (.pushInt n) s (s.push (.int n)) := by
  intro i hi
  cases hi with
  | small h1 h2 =>
    have hn : n = Int32.ofInt n.toInt := (Int32.ofInt_toInt n).symm
    generalize n.toInt = v at h1 h2 hn ⊢
    subst hn
    rcases (by omega : v = -1 ∨ v = 0 ∨ v = 1 ∨ v = 2 ∨ v = 3 ∨ v = 4 ∨ v = 5) with
      rfl | rfl | rfl | rfl | rfl | rfl | rfl
    all_goals exact ⟨rfl, rfl⟩
  | byte h1 h2 => exact ⟨rfl, rfl⟩
  | short h1 h2 => exact ⟨rfl, rfl⟩
  | integer h => exact ⟨by simp only [Platform.act, h], rfl⟩

theorem carryOut_done {insn : Insn} {op : Operation} {w : P.World} {st : List (Word P.Object)}
    (hop : Operation.ofInsn q insn = some op) (h : P.perform op s.world s.stack = .done w st) :
    P.carryOut q insn s = .next { s with world := w, stack := st } := by
  simp only [Platform.carryOut, hop, h]

theorem goesOn_pushString {text : String} {w : P.World} {st : List (Word P.Object)}
    (h : P.perform (.text text) s.world s.stack = .done w st) :
    GoesOn P q (.pushString text) s { s with world := w, stack := st } := by
  intro i hi
  cases hi with
  | @string _ index t hc ht =>
    have hop : Operation.ofInsn q (.ldc index) = some (.text text) := by
      simp only [Operation.ofInsn, hc, ht]
      rfl
    refine ⟨?_, rfl⟩
    rw [← carryOut_done hop h]
    simp only [Platform.act, hc]

section Constants

variable {op : Opcode} {w : P.World} {st : List (Word P.Object)} (hop : Op.isTerminal op = false)
include hop

theorem goesOn_type {name : String}
    (h : P.perform (.type op name) s.world s.stack = .done w st) :
    GoesOn P q (.type op name) s { s with world := w, stack := st } := by
  intro i hi
  cases hi with
  | @type _ _ index hc =>
    refine ⟨carryOut_done ?_ h, hop⟩
    simp only [Operation.ofInsn, hc]
    rfl

theorem goesOn_field {f : MemberRef}
    (h : P.perform (.field op f) s.world s.stack = .done w st) :
    GoesOn P q (.field op f) s { s with world := w, stack := st } := by
  intro i hi
  cases hi with
  | @field _ _ index hc =>
    refine ⟨carryOut_done ?_ h, hop⟩
    simp only [Operation.ofInsn, hc]
    rfl

theorem goesOn_method {m : MemberRef}
    (h : P.perform (.method op m) s.world s.stack = .done w st) :
    GoesOn P q (.method op m) s { s with world := w, stack := st } := by
  intro i hi
  cases hi with
  | @method _ _ index hc =>
    refine ⟨carryOut_done ?_ h, hop⟩
    simp only [Operation.ofInsn, hc]
    rfl

end Constants

end Single

/-- A template that throws what is on top of the stack. -/
theorem comes_throw {k : Nat} {y : P.World} {o : P.Object} {st : List (Word P.Object)}
    {ν : Nat → Word P.Object} {a : P.Status} (hk : σ.code[k]? = some (.op Op.athrow))
    (hskip : σ.skips k) (ho : P.isA y o throwableClass = true)
    (h : Comes P σ (P.raise σ.pool σ.body k ⟨y, .object o :: st, ν⟩ y o) a) :
    Comes P σ (.running k ⟨y, .object o :: st, ν⟩) a := by
  obtain ⟨i, hi, hsettles⟩ := forall₂_getElem? σ.settled hk
  cases hsettles
  have hact : P.act σ.pool (.simple Op.athrow) ⟨y, .object o :: st, ν⟩ = .throw y o := by
    change (if P.isA y o throwableClass = true then _ else _) = _
    rw [if_pos ho]
  refine .step hskip ?_
  rw [Platform.step_throw hi hact]
  exact h


end Stage

end Interpose
