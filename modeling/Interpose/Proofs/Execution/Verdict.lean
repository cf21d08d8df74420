import Interpose.Proofs.Execution.Neutral
import Interpose.Proofs.Execution.Stage
/-!
# Acting on a verdict

The check of a verdict, run wherever it stands in a body and whatever is on the stack below. What its
value is coerced with is a list of operations for each return type (`JavaType.coercion`). A platform may
do them, throw from one or be stuck, and the run follows (`Stands.performAll`). What the check does for
every state of the verdict is `Platform.Resolves`, and `Stands.resolves` says that it does so.
-/

namespace Interpose

/-! ## Coercion -/

/-- What turns an object into a value of a type, one operation after the other. A numeric type takes
any number object, and every object is one of the class of all objects already. -/
def JavaType.coercion (t : JavaType) : List Operation :=
  let ask (owner name descriptor : String) : List Operation :=
    [.type Op.checkcast owner, .method Op.invokevirtual ⟨owner, name, descriptor⟩]
  match t with
  | void => []
  | boolean => ask "java/lang/Boolean" "booleanValue" "()Z"
  | char => ask "java/lang/Character" "charValue" "()C"
  | byte => ask "java/lang/Number" "byteValue" "()B"
  | short => ask "java/lang/Number" "shortValue" "()S"
  | int => ask "java/lang/Number" "intValue" "()I"
  | long => ask "java/lang/Number" "longValue" "()J"
  | float => ask "java/lang/Number" "floatValue" "()F"
  | double => ask "java/lang/Number" "doubleValue" "()D"
  | object name => if name = objectClass then [] else [.type Op.checkcast name]
  | array component => [.type Op.checkcast (array component).descriptor]

/-- The template carries out an operation, and control goes on behind it. -/
inductive Template.Performs : Template → Operation → Prop
  | type {op : Opcode} {name : String} : Op.isTerminal op = false →
    Performs (.type op name) (.type op name)
  | method {op : Opcode} {m : MemberRef} : Op.isTerminal op = false →
    Performs (.method op m) (.method op m)

/-- No array is named like the class of all objects. -/
theorem JavaType.descriptor_array_ne (component : JavaType) :
    (array component).descriptor ≠ objectClass := by
  intro h
  have hchars := congrArg String.toList h
  rw [descriptor, String.toList_ofList] at hchars
  exact absurd (List.cons.inj hchars).1 (by decide)

/-- Unboxing is the coercion; a method without a value drops the object. -/
theorem JavaType.unboxing_performs {t : JavaType} (ht : t ≠ void) :
    List.Forall₂ Template.Performs t.unboxing t.coercion := by
  have ask : ∀ owner name descriptor, List.Forall₂ Template.Performs
      (unwrapping owner name descriptor)
      [.type Op.checkcast owner, .method Op.invokevirtual ⟨owner, name, descriptor⟩] :=
    fun _ _ _ => .cons (.type rfl) (.cons (.method rfl) .nil)
  cases t with
  | void => exact absurd rfl ht
  | object name =>
    change List.Forall₂ Template.Performs (if name = objectClass then [] else [.type Op.checkcast name])
      (if name = objectClass then [] else [.type Op.checkcast name])
    split
    · exact .nil
    · exact .cons (.type rfl) .nil
  | array component =>
    change List.Forall₂ Template.Performs (if _ = objectClass then [] else _) _
    rw [if_neg (descriptor_array_ne component)]
    exact .cons (.type rfl) .nil
  | _ => exact ask _ _ _

namespace Platform

variable (P : Platform)

def performAll : List Operation → P.World → List (Word P.Object) → Outcome P.World P.Object
  | [], w, st => .done w st
  | op :: ops, w, st =>
    match P.perform op w st with
    | .done w st => performAll ops w st
    | .thrown w o => .thrown w o
    | .stuck => .stuck

/-- The value of a verdict, above other slots, as a value of a type. There is none of `void`. -/
def coerce (t : JavaType) (w : P.World) (v : Word P.Object) (rest : List (Word P.Object)) :
    Outcome P.World P.Object :=
  P.performAll t.coercion w (if t = .void then rest else v :: rest)

/-- The object is a verdict with the given state and value, and its fields can be read. -/
structure IsVerdict (w : P.World) (r : P.Object) (state : Int32) (v : Word P.Object) : Prop where
  state : ∀ rest, P.perform (.field Op.getfield Spy.stateField) w (.object r :: rest) =
    .done w (.int state :: rest)
  value : ∀ rest, P.perform (.field Op.getfield Spy.valueField) w (.object r :: rest) =
    .done w (v :: rest)

/-- The run comes from one status to another, through instructions from a number up to another. -/
def Leads (q : Pool) (b : Body) (lo hi : Nat) (a c : P.Status) : Prop :=
  ∃ n, (P.run q b n a).2 = c ∧ ∀ e ∈ (P.run q b n a).1, lo ≤ e.1 ∧ e.1 < hi

/-- The run comes to an instruction if operations are done, with their result; otherwise one in front of
it throws, or the run is stuck. -/
def Yields (q : Pool) (b : Body) (lo hi : Nat) (a : P.Status) (i : Nat) (ν : Nat → Word P.Object) :
    Outcome P.World P.Object → Prop
  | .done w st => P.Leads q b lo hi a (.running i ⟨w, st, ν⟩)
  | .thrown w o => ∃ j s, lo ≤ j ∧ j < i ∧ s.locals = ν ∧ P.Leads q b lo hi a (P.raise q b j s w o)
  | .stuck => P.Leads q b lo hi a .stuck

/-- What instructions from a number up to another do with a verdict on top of the stack, in a method
with the given return type. -/
structure Resolves (q : Pool) (b : Body) (lo hi : Nat) (t : JavaType) (w : P.World) (r : P.Object)
    (state : Int32) (v : Word P.Object) (rest : List (Word P.Object)) (ν : Nat → Word P.Object) :
    Prop where
  /-- Verdicts to return come to the return with their value coerced. -/
  coerces : state = Spy.stateReturn → ∃ i, lo ≤ i ∧ i < hi ∧
    b.insns[i]? = some (.simple t.returnOpcode) ∧
    P.Yields q b lo hi (.running lo ⟨w, .object r :: rest, ν⟩) i ν (P.coerce t w v rest)
  returns : state = Spy.stateReturn → ∀ w' value, P.coerce t w v rest = .done w' (value ++ rest) →
    (t = .void ∧ value = [] ∨ Word.Fits t value) →
    P.Leads q b lo hi (.running lo ⟨w, .object r :: rest, ν⟩) (.returned value w')
  /-- Verdicts to throw come to the throw with their value cast. -/
  casts : state = Spy.stateThrow → ∃ i, lo ≤ i ∧ i < hi ∧
    b.insns[i]? = some (.simple Op.athrow) ∧
    P.Yields q b lo hi (.running lo ⟨w, .object r :: rest, ν⟩) i ν
      (P.perform (.type Op.checkcast throwableClass) w (v :: rest))
  throws : state = Spy.stateThrow → ∀ w' o,
    P.perform (.type Op.checkcast throwableClass) w (v :: rest) = .done w' (.object o :: rest) →
    P.isA w' o throwableClass = true → ∃ i s, lo ≤ i ∧ i < hi ∧ s.locals = ν ∧
      P.Leads q b lo hi (.running lo ⟨w, .object r :: rest, ν⟩) (P.raise q b i s w' o)
  goesOn : state ≠ Spy.stateReturn → state ≠ Spy.stateThrow →
    P.Leads q b lo hi (.running lo ⟨w, .object r :: rest, ν⟩) (.running hi ⟨w, rest, ν⟩)

/-! ## Runs -/

variable {P} {q : Pool} {b : Body}

variable {lo hi : Nat} {a c d : P.Status}

theorem Leads.refl : P.Leads q b lo hi a a :=
  ⟨0, rfl, nofun⟩

theorem Leads.trans (h : P.Leads q b lo hi a c) (h' : P.Leads q b lo hi c d) :
    P.Leads q b lo hi a d := by
  obtain ⟨n, rfl, hn⟩ := h
  obtain ⟨m, rfl, hm⟩ := h'
  refine ⟨n + m, by rw [run_add], fun e he => ?_⟩
  rw [run_add] at he
  rcases List.mem_append.1 he with he | he
  · exact hn e he
  · exact hm e he

theorem Leads.step {i : Nat} {s : P.Store} (hlo : lo ≤ i) (hhi : i < hi)
    (h : P.step q b i s = a) : P.Leads q b lo hi (.running i s) a := by
  refine ⟨1, h, fun e he => ?_⟩
  rw [List.mem_singleton.1 he]
  exact ⟨hlo, hhi⟩

theorem Yields.after {i : Nat} {ν : Nat → Word P.Object} {x : Outcome P.World P.Object}
    (h : P.Leads q b lo hi a c) (h' : P.Yields q b lo hi c i ν x) : P.Yields q b lo hi a i ν x := by
  cases x with
  | done w st => exact h.trans h'
  | thrown w o =>
    obtain ⟨j, s, hlo, hi, hs, h'⟩ := h'
    exact ⟨j, s, hlo, hi, hs, h.trans h'⟩
  | stuck => exact h.trans h'

/-- An instruction for an operation has it carried out. -/
theorem act_performs {x : Template} {op : Operation} (hx : x.Performs op) {i : Insn}
    (hi : x.Settles q i) (s : P.Store) :
    i.isTerminal = false ∧ Operation.ofInsn q i = some op ∧ P.act q i s = P.carryOut q i s := by
  cases hx with
  | type hop =>
    cases hi with
    | type hc =>
      refine ⟨hop, ?_, rfl⟩
      simp only [Operation.ofInsn, hc]
      rfl
  | method hop =>
    cases hi with
    | method hc =>
      refine ⟨hop, ?_, rfl⟩
      simp only [Operation.ofInsn, hc]
      rfl

end Platform

/-! ## Templates in a body -/

namespace Template

/-- Templates that stand in a body from an instruction on. Where they place a label the body finds it. -/
structure Stands (q : Pool) (b : Body) (k : Nat) (ts : List Template) : Prop where
  insn : ∀ j x, ts[j]? = some x → ∃ i, b.insns[k + j]? = some i ∧ x.Settles q i
  label : ∀ j l, ts[j]? = some (.place l) → LastPlace b.insns l (k + j)

namespace Stands

variable {q : Pool} {b : Body} {k : Nat} {ts ts' : List Template}

theorem left (h : Stands q b k (ts ++ ts')) : Stands q b k ts := by
  have inLeft : ∀ {j x}, ts[j]? = some x → (ts ++ ts')[j]? = some x := fun hj => by
    rw [List.getElem?_append_left (List.getElem?_eq_some_iff.1 hj).1, hj]
  exact ⟨fun j x hj => h.insn j x (inLeft hj), fun j l hj => h.label j l (inLeft hj)⟩

theorem right (h : Stands q b k (ts ++ ts')) : Stands q b (k + ts.length) ts' := by
  have inRight : ∀ {j x}, ts'[j]? = some x → (ts ++ ts')[ts.length + j]? = some x := fun hj => by
    rw [List.getElem?_append_right (Nat.le_add_right _ _), Nat.add_sub_cancel_left, hj]
  constructor
  · intro j x hj
    rw [Nat.add_assoc]
    exact h.insn _ x (inRight hj)
  · intro j l hj
    rw [Nat.add_assoc]
    exact h.label _ l (inRight hj)

theorem tail {x : Template} (h : Stands q b k (x :: ts)) : Stands q b (k + 1) ts :=
  show Stands q b (k + [x].length) ts from right h

variable {P : Platform} {lo hi : Nat}

theorem next (h : Stands q b k ts) {j : Nat} {x : Template} {s u : P.Store} {c : P.Status}
    (hj : ts[j]? = some x) (hlo : lo ≤ k + j) (hhi : k + j < hi) (hx : Stage.GoesOn P q x s u)
    (hrest : P.Leads q b lo hi (.running (k + j + 1) u) c) :
    P.Leads q b lo hi (.running (k + j) s) c := by
  obtain ⟨i, hinsn, hsettles⟩ := h.insn j x hj
  obtain ⟨hact, hon⟩ := hx i hsettles
  refine (Platform.Leads.step hlo hhi ?_).trans hrest
  simp only [Platform.step, hinsn, hact, hon, Bool.false_eq_true, if_false]

theorem jump (h : Stands q b k ts) {j m l : Nat} {x : Template} {s u : P.Store} {c : P.Status}
    (hj : ts[j]? = some x) (hlo : lo ≤ k + j) (hhi : k + j < hi) (hx : Stage.JumpsTo P q x s l u)
    (hm : LastPlace b.insns l m) (hrest : P.Leads q b lo hi (.running m u) c) :
    P.Leads q b lo hi (.running (k + j) s) c := by
  obtain ⟨i, hinsn, hsettles⟩ := h.insn j x hj
  refine (Platform.Leads.step hlo hhi ?_).trans hrest
  simp only [Platform.step, hinsn, hx i hsettles, labelPositions_eq_some.2 hm]

/-- A template for an operation comes out as the operation does. -/
theorem perform (h : Stands q b k ts) {j : Nat} {x : Template} {op : Operation}
    (hj : ts[j]? = some x) (hx : x.Performs op) (hlo : lo ≤ k + j) (hhi : k + j < hi) (w : P.World)
    (st : List (Word P.Object)) (ν : Nat → Word P.Object) :
    P.Yields q b lo hi (.running (k + j) ⟨w, st, ν⟩) (k + j + 1) ν (P.perform op w st) := by
  obtain ⟨i, hinsn, hsettles⟩ := h.insn j x hj
  obtain ⟨hon, hofInsn, hact⟩ := Platform.act_performs hx hsettles (⟨w, st, ν⟩ : P.Store)
  unfold Platform.carryOut at hact
  rw [hofInsn] at hact
  cases hop : P.perform op w st with
  | done w' st' =>
    simp only [hop] at hact
    refine .step hlo hhi ?_
    simp only [Platform.step, hinsn, hact, hon, Bool.false_eq_true, if_false]
  | thrown w' o =>
    simp only [hop] at hact
    exact ⟨k + j, _, hlo, by omega, rfl, .step hlo hhi (Platform.step_throw hinsn hact)⟩
  | stuck =>
    simp only [hop] at hact
    refine .step hlo hhi ?_
    simp only [Platform.step, hinsn, hact]

/-- Templates for operations come out as the operations do one after the other. -/
theorem performAll (h : Stands q b k ts) {ops : List Operation}
    (hops : List.Forall₂ Performs ts ops) (hlo : lo ≤ k) (hhi : k + ts.length ≤ hi) (w : P.World)
    (st : List (Word P.Object)) (ν : Nat → Word P.Object) :
    P.Yields q b lo hi (.running k ⟨w, st, ν⟩) (k + ts.length) ν (P.performAll ops w st) := by
  induction hops generalizing k w st with
  | nil => exact .refl
  | @cons x op ts ops hx _ ih =>
    rw [List.length_cons] at hhi ⊢
    have htail := h.tail
    have hfirst := h.perform (P := P) (j := 0) rfl hx hlo (show k < hi by omega) w st ν
    unfold Platform.performAll
    cases hop : P.perform op w st with
    | done w' st' =>
      rw [hop] at hfirst
      refine Platform.Yields.after hfirst ?_
      rw [Nat.add_comm ts.length, ← Nat.add_assoc]
      exact ih htail (by omega) (by omega) w' st'
    | thrown w' o =>
      rw [hop] at hfirst
      obtain ⟨j, s, hj, hlt, hs, hleads⟩ := hfirst
      exact ⟨j, s, hj, by omega, hs, hleads⟩
    | stuck =>
      rw [hop] at hfirst
      exact hfirst

end Stands

end Template

/-! ## The check -/

namespace Block

/-- The check of a verdict up to the value to return. -/
def verdictEntry (notReturn : Label) : List Template :=
  [.op Op.dup, .field Op.getfield Spy.stateField, .op Op.dup, .pushInt Spy.stateReturn,
    .jump Op.ifIcmpne notReturn, .op Op.pop, .field Op.getfield Spy.valueField]

/-- The check of a verdict from the return on. -/
def verdictExits (returnType : JavaType) (notReturn finish : Label) : List Template :=
  [.op returnType.returnOpcode, .place notReturn, .pushInt Spy.stateThrow, .jump Op.ifIcmpne finish,
    .field Op.getfield Spy.valueField, .type Op.checkcast throwableClass, .op Op.athrow,
    .place finish, .op Op.pop]

theorem verdictCheck_eq (t : JavaType) (l l' : Label) :
    verdictCheck t l l' = verdictEntry l ++ (t.unboxing ++ verdictExits t l l') :=
  List.append_assoc _ _ _

theorem length_verdictCheck (t : JavaType) (l l' : Label) :
    (verdictCheck t l l').length = 7 + t.unboxing.length + 9 := by
  rw [verdictCheck_eq, List.length_append, List.length_append]
  exact (Nat.add_assoc _ _ _).symm

end Block

/-- The return opcode of a type takes its value off the stack. -/
theorem Word.returned_returnOpcode {Object : Type} {t : JavaType} {value rest : List (Word Object)}
    (h : t = .void ∧ value = [] ∨ Word.Fits t value) :
    Word.returned t.returnOpcode (value ++ rest) = some value := by
  have reference : ∀ {t : JavaType}, t.isReference = true → t.returnOpcode = Op.areturn := by
    intro t ht
    cases t <;> first | rfl | cases ht
  rcases h with ⟨rfl, rfl⟩ | h
  · rfl
  · cases h with
    | null ht => rw [reference ht]; rfl
    | object o ht => rw [reference ht]; rfl
    | _ => rfl

namespace Platform

variable (P : Platform) (q : Pool)

theorem act_returnOpcode {t : JavaType} {s : P.Store} {value : List (Word P.Object)}
    (h : Word.returned t.returnOpcode s.stack = some value) :
    P.act q (.simple t.returnOpcode) s = .leave value s.world := by
  have hreturn : Op.isReturn t.returnOpcode = true := by cases t <;> rfl
  simp only [act, simple, hreturn, if_true, h]

theorem act_athrow {w : P.World} {o : P.Object} (rest : List (Word P.Object))
    (ν : Nat → Word P.Object) (ho : P.isA w o throwableClass = true) :
    P.act q (.simple Op.athrow) ⟨w, .object o :: rest, ν⟩ = .throw w o := by
  change (if P.isA w o throwableClass = true then _ else _) = _
  rw [if_pos ho]

/-- Two numbers are compared: control goes on when they are the same. -/
theorem act_ifIcmpne (l : Label) (w : P.World) (a c : Int32) (st : List (Word P.Object))
    (ν : Nat → Word P.Object) : P.act q (.jump Op.ifIcmpne l) ⟨w, .int a :: .int c :: st, ν⟩ =
      if c = a then .next ⟨w, st, ν⟩ else .jump l ⟨w, st, ν⟩ := by
  have hbranch : Word.branch Op.ifIcmpne (.int a :: .int c :: st : List (Word P.Object)) =
    some (c != a, st) := rfl
  unfold act
  simp only [hbranch]
  by_cases h : c = a
  · simp only [h, bne_self_eq_false, if_true]
    rfl
  · simp only [h, if_false, bne_iff_ne.2 h]
    rfl

end Platform

namespace Template.Stands

variable {P : Platform} {q : Pool} {b : Body} {k lo hi : Nat} {t : JavaType} {w : P.World}
  {r : P.Object} {state : Int32} {v : Word P.Object} {rest : List (Word P.Object)}
  {ν : Nat → Word P.Object} {l l' : Nat}

/-- What unboxing does to the object on top of the stack. -/
theorem unboxing (h : Stands q b k t.unboxing) (hlo : lo ≤ k) (hhi : k + t.unboxing.length ≤ hi) :
    P.Yields q b lo hi (.running k ⟨w, v :: rest, ν⟩) (k + t.unboxing.length) ν
      (P.coerce t w v rest) := by
  unfold Platform.coerce
  by_cases ht : t = .void
  · subst ht
    have hhi : k + 1 ≤ hi := hhi
    exact h.next (j := 0) rfl hlo hhi (Stage.goesOn_plain (i := .simple Op.pop) rfl rfl) .refl
  · rw [if_neg ht]
    exact h.performAll (JavaType.unboxing_performs ht) hlo hhi w _ ν

section Entry

variable (h : Stands q b k (Block.verdictEntry l)) (hv : P.IsVerdict w r state v)
  (hlo : lo ≤ k) (hhi : k + 7 ≤ hi)
include h hv hlo hhi

/-- The state is compared with the one to return, and kept below. -/
theorem compared : P.Leads q b lo hi (.running k ⟨w, .object r :: rest, ν⟩) (.running (k + 4)
    ⟨w, .int Spy.stateReturn :: .int state :: .int state :: .object r :: rest, ν⟩) := by
  have dup : ∀ {s u}, P.act q (.simple Op.dup) s = .next u → Stage.GoesOn P q (.op Op.dup) s u :=
    fun hact => Stage.goesOn_plain (i := .simple Op.dup) hact rfl
  refine h.next (j := 0) rfl (by omega) (by omega) (dup rfl) ?_
  refine h.next (j := 1) rfl (by omega) (by omega) (Stage.goesOn_field rfl (hv.state _)) ?_
  refine h.next (j := 2) rfl (by omega) (by omega) (dup rfl) ?_
  exact h.next (j := 3) rfl (by omega) (by omega) (Stage.goesOn_pushInt _) .refl

/-- A verdict to return leaves its value. -/
theorem entry_return (hs : state = Spy.stateReturn) : P.Leads q b lo hi
    (.running k ⟨w, .object r :: rest, ν⟩) (.running (k + 7) ⟨w, v :: rest, ν⟩) := by
  refine (h.compared hv hlo hhi).trans ?_
  have hact := P.act_ifIcmpne q l w Spy.stateReturn state (.int state :: .object r :: rest) ν
  rw [if_pos hs] at hact
  refine h.next (j := 4) rfl (by omega) (by omega) (Stage.goesOn_plain hact rfl) ?_
  refine h.next (j := 5) rfl (by omega) (by omega)
    (Stage.goesOn_plain (i := .simple Op.pop) rfl rfl) ?_
  exact h.next (j := 6) rfl (by omega) (by omega) (Stage.goesOn_field rfl (hv.value _)) .refl

/-- Any other verdict goes to the label, with its state above it. -/
theorem entry_other (hs : state ≠ Spy.stateReturn) {m : Nat} (hm : LastPlace b.insns l m) :
    P.Leads q b lo hi (.running k ⟨w, .object r :: rest, ν⟩)
      (.running m ⟨w, .int state :: .object r :: rest, ν⟩) := by
  refine (h.compared hv hlo hhi).trans ?_
  have hact := P.act_ifIcmpne q l w Spy.stateReturn state (.int state :: .object r :: rest) ν
  rw [if_neg hs] at hact
  exact h.jump (j := 4) rfl (by omega) (by omega) (Stage.jumpsTo_plain hact) hm .refl

end Entry

section Exits

variable (h : Stands q b k (Block.verdictExits t l l')) (hlo : lo ≤ k) (hhi : k + 9 ≤ hi)
include h hlo hhi

/-- The state is compared with the one to throw. -/
theorem compared_throw : P.Leads q b lo hi
    (.running (k + 1) ⟨w, .int state :: .object r :: rest, ν⟩)
    (.running (k + 3) ⟨w, .int Spy.stateThrow :: .int state :: .object r :: rest, ν⟩) := by
  refine h.next (j := 1) rfl (by omega) (by omega) (Stage.goesOn_place l) ?_
  exact h.next (j := 2) rfl (by omega) (by omega) (Stage.goesOn_pushInt _) .refl

/-- A verdict to throw leaves its value in front of the cast. -/
theorem exits_value (hv : P.IsVerdict w r state v) (hs : state = Spy.stateThrow) :
    P.Leads q b lo hi (.running (k + 1) ⟨w, .int state :: .object r :: rest, ν⟩)
      (.running (k + 5) ⟨w, v :: rest, ν⟩) := by
  have hact := P.act_ifIcmpne q l' w Spy.stateThrow state (.object r :: rest) ν
  rw [if_pos hs] at hact
  refine (h.compared_throw hlo hhi).trans ?_
  refine h.next (j := 3) rfl (by omega) (by omega) (Stage.goesOn_plain hact rfl) ?_
  exact h.next (j := 4) rfl (by omega) (by omega) (Stage.goesOn_field rfl (hv.value _)) .refl

/-- A verdict to throw has its value cast and comes to the throw. -/
theorem exits_throw (hv : P.IsVerdict w r state v) (hs : state = Spy.stateThrow) :
    P.Yields q b lo hi (.running (k + 1) ⟨w, .int state :: .object r :: rest, ν⟩) (k + 6) ν
      (P.perform (.type Op.checkcast throwableClass) w (v :: rest)) :=
  .after (h.exits_value hlo hhi hv hs) (h.perform (j := 5) rfl (.type rfl) (by omega) (by omega) w _ ν)

/-- Any other verdict is dropped behind the second label. -/
theorem exits_other (hs : state ≠ Spy.stateThrow) : P.Leads q b lo hi
    (.running (k + 1) ⟨w, .int state :: .object r :: rest, ν⟩) (.running (k + 9) ⟨w, rest, ν⟩) := by
  refine (h.compared_throw hlo hhi).trans ?_
  have hact := P.act_ifIcmpne q l' w Spy.stateThrow state (.object r :: rest) ν
  rw [if_neg hs] at hact
  refine h.jump (j := 3) rfl (by omega) (by omega) (Stage.jumpsTo_plain hact) (h.label 7 l' rfl) ?_
  refine h.next (j := 7) rfl (by omega) (by omega) (Stage.goesOn_place l') ?_
  exact h.next (j := 8) rfl (by omega) (by omega)
    (Stage.goesOn_plain (i := .simple Op.pop) rfl rfl) .refl

end Exits

/-- The check of a verdict, on any platform, for any state and above any slots. -/
theorem resolves (h : Stands q b k (Block.verdictCheck t l l')) (hv : P.IsVerdict w r state v)
    (rest : List (Word P.Object)) (ν : Nat → Word P.Object) :
    P.Resolves q b k (k + (Block.verdictCheck t l l').length) t w r state v rest ν := by
  rw [Block.length_verdictCheck]
  rw [Block.verdictCheck_eq] at h
  have entry : Stands q b k (Block.verdictEntry l) := h.left
  have middle : Stands q b (k + 7) t.unboxing := h.right.left
  have exits : Stands q b (k + 7 + t.unboxing.length) (Block.verdictExits t l l') := h.right.right
  have coerced : ∀ hi, k + 7 + t.unboxing.length ≤ hi → P.Yields q b k hi
      (.running (k + 7) ⟨w, v :: rest, ν⟩) (k + 7 + t.unboxing.length) ν (P.coerce t w v rest) :=
    fun hi hle => middle.unboxing (Nat.le_add_right k 7) hle
  generalize t.unboxing.length = n at exits coerced ⊢
  generalize hhi : k + (7 + n + 9) = hi
  have returnAt : b.insns[k + 7 + n]? = some (.simple t.returnOpcode) := by
    obtain ⟨i, hi, hsettles⟩ := exits.insn 0 _ rfl
    cases hsettles
    exact hi
  have throwAt : b.insns[k + 7 + n + 6]? = some (.simple Op.athrow) := by
    obtain ⟨i, hi, hsettles⟩ := exits.insn 6 _ rfl
    cases hsettles
    exact hi
  have coerces (hs : state = Spy.stateReturn) : P.Yields q b k hi
      (.running k ⟨w, .object r :: rest, ν⟩) (k + 7 + n) ν (P.coerce t w v rest) :=
    .after (entry.entry_return hv (Nat.le_refl _) (by omega) hs) (coerced hi (by omega))
  have other (hs : state ≠ Spy.stateReturn) : P.Leads q b k hi (.running k ⟨w, .object r :: rest, ν⟩)
      (.running (k + 7 + n + 1) ⟨w, .int state :: .object r :: rest, ν⟩) :=
    entry.entry_other hv (Nat.le_refl k) (by omega) hs (exits.label 1 l rfl)
  have casts (hs : state = Spy.stateThrow) : P.Yields q b k hi
      (.running k ⟨w, .object r :: rest, ν⟩) (k + 7 + n + 6) ν
      (P.perform (.type Op.checkcast throwableClass) w (v :: rest)) :=
    .after (other (by rw [hs]; decide)) (exits.exits_throw (by omega) (by omega) hv hs)
  refine ⟨fun hs => ⟨_, by omega, by omega, returnAt, coerces hs⟩, fun hs w' value hdone hvalue => ?_,
    fun hs => ⟨_, by omega, by omega, throwAt, casts hs⟩, fun hs w' o hdone ho => ?_, fun hs hs' => ?_⟩
  · have hcame := coerces hs
    rw [hdone] at hcame
    have hact : P.act q (.simple t.returnOpcode) ⟨w', value ++ rest, ν⟩ = .leave value w' :=
      P.act_returnOpcode q (Word.returned_returnOpcode hvalue)
    refine hcame.trans (.step (by omega) (by omega) ?_)
    simp only [Platform.step, returnAt, hact]
  · have hcame := casts hs
    rw [hdone] at hcame
    refine ⟨k + 7 + n + 6, ⟨w', .object o :: rest, ν⟩, by omega, by omega, rfl, hcame.trans ?_⟩
    exact .step (by omega) (by omega) (Platform.step_throw throwAt (P.act_athrow q rest ν ho))
  · have hend : hi = k + 7 + n + 9 := by omega
    subst hend
    exact (other hs).trans (exits.exits_other (by omega) (Nat.le_refl _) hs')

end Template.Stands

end Interpose
