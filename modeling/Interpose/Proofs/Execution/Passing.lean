import Interpose.Proofs.Execution.Arguments
import Interpose.Proofs.Execution.Reports
import Interpose.Proofs.Execution.Verdict
/-!
# Passing arguments

The report of the start, run wherever it stands, on a platform of which only what is documented about
arrays of objects, wrappers and casts is known (`Platform.Boxing`). Parameters are found by their number:
each stands behind the receiver and the parameters in front of it (`MethodContext.slotOf`).

Results:
* `startFront_moves`: in front of its dispatch the report has an array of the boxed parameters on the stack.
* `startBack_moves`: behind a verdict to go on, each parameter takes the unboxed element of the array.
-/

namespace Interpose

/-! ## Slots of parameters -/

/-- The first slot of a parameter, behind the receiver and the parameters in front of it. -/
def MethodContext.slotOf (context : MethodContext) (i : Nat) : Nat :=
  context.receiverSlots + ((context.descriptor.parameters.take i).map JavaType.slots).sum

/-- Values have slots, so there are no more of them than slots. -/
theorem MethodDescriptor.length_parameters_le {d : MethodDescriptor}
    (h : ∀ (i : Nat) (t : JavaType), d.parameters[i]? = some t → 0 < t.slots) :
    d.parameters.length ≤ d.parameterSlots := by
  have hpos : ∀ t ∈ d.parameters, 0 < t.slots := by
    intro t ht
    obtain ⟨i, hi⟩ := List.mem_iff_getElem?.1 ht
    exact h i t hi
  change d.parameters.length ≤ (d.parameters.map JavaType.slots).sum
  clear h
  generalize d.parameters = ts at hpos ⊢
  induction ts with
  | nil => exact Nat.le_refl _
  | cons t ts ih =>
    have hfirst := hpos t (List.mem_cons_self ..)
    have hrest := ih fun t ht => hpos t (List.mem_cons_of_mem _ ht)
    rw [List.map_cons, List.sum_cons, List.length_cons]
    omega

namespace Block

variable {first slot : UInt16} {t : JavaType} {ts : List JavaType}

theorem toNat_add_slots (hroom : first.toNat + ((t :: ts).map JavaType.slots).sum ≤ 0xFFFF) :
    (first + UInt16.ofNat t.slots).toNat = first.toNat + t.slots := by
  rw [List.map_cons, List.sum_cons] at hroom
  have hsmall : t.slots < UInt16.size := by
    change t.slots < 65536
    omega
  rw [UInt16.toNat_add, UInt16.toNat_ofNat_of_lt' hsmall]
  exact Nat.mod_eq_of_lt (by omega)

/-- The slot of a parameter is the first one moved by the slots of those in front of it. -/
theorem getElem?_parameterSlots (hroom : first.toNat + (ts.map JavaType.slots).sum ≤ 0xFFFF) {i : Nat} :
    (parameterSlots first ts)[i]? = some (t, slot) ↔
      ts[i]? = some t ∧ slot.toNat = first.toNat + ((ts.take i).map JavaType.slots).sum := by
  induction ts generalizing first i with
  | nil => simp [parameterSlots]
  | cons u ts ih =>
    have hnext := toNat_add_slots hroom
    rw [List.map_cons, List.sum_cons] at hroom
    cases i with
    | zero =>
      simp only [parameterSlots, List.getElem?_cons_zero, Option.some.injEq, Prod.mk.injEq,
        List.take_zero, List.map_nil, List.sum_nil, Nat.add_zero, ← UInt16.toNat_inj]
      exact and_congr_right fun _ => eq_comm
    | succ i =>
      simp only [parameterSlots, List.getElem?_cons_succ, List.take_succ_cons, List.map_cons,
        List.sum_cons]
      rw [ih (by omega), hnext, Nat.add_assoc]

end Block

def Word.IsReference {Object : Type} (v : Word Object) : Prop :=
  v = .null ∨ ∃ o, v = .object o

/-! ## What is known of a platform -/

/-- Arrays of objects, wrappers of primitive values, texts and casts, as documented. -/
structure Platform.Boxing (P : Platform) where
  /-- The elements of an array of objects. -/
  elements : P.World → P.Object → Option (List (Word P.Object))
  /-- The object wraps a value of a primitive type. -/
  Wraps : P.World → P.Object → JavaType → List (Word P.Object) → Prop
  /-- Asked for its value as one of a primitive type, the object answers with a value. -/
  Answers : P.World → P.Object → JavaType → List (Word P.Object) → Prop
  /-- All that there is in the first world is in the second one as it was. -/
  Keeps : P.World → P.World → Prop
  refl : ∀ w, Keeps w w
  trans : ∀ {w w' w''}, Keeps w w' → Keeps w' w'' → Keeps w w''
  keeps_elements : ∀ {w w' a es}, Keeps w w' → elements w a = some es → elements w' a = some es
  keeps_wraps : ∀ {w w' o t value}, Keeps w w' → Wraps w o t value → Wraps w' o t value
  keeps_answers : ∀ {w w' o t value}, Keeps w w' → Answers w o t value → Answers w' o t value
  keeps_isA : ∀ {w w' o c}, Keeps w w' → P.isA w o c = true → P.isA w' o c = true
  text : ∀ (text w st), ∃ w' o, P.perform (.text text) w st = .done w' (.object o :: st) ∧ Keeps w w'
  newArray : ∀ {n : Nat} (w st), n < 65536 →
    ∃ w' a, P.perform (.type Op.anewarray objectClass) w (.int (Int32.ofNat n) :: st) =
      .done w' (.object a :: st) ∧ Keeps w w' ∧ elements w' a = some (List.replicate n .null)
  /-- An element is replaced; nothing else changes that an object wraps. -/
  fill : ∀ {w a es i v} (st), elements w a = some es → i < es.length → i < 65536 → v.IsReference →
    ∃ w', P.perform (.simple Op.aastore) w (v :: .int (Int32.ofNat i) :: .object a :: st) =
      .done w' st ∧ elements w' a = some (es.set i v) ∧
      ∀ o t value, Wraps w o t value → Wraps w' o t value
  element : ∀ {w a es i v} (st), elements w a = some es → es[i]? = some v → i < 65536 →
    ∃ w', P.perform (.simple Op.aaload) w (.int (Int32.ofNat i) :: .object a :: st) =
      .done w' (v :: st) ∧ Keeps w w'
  box : ∀ {t wrapper value} (w st), t.boxClass = some wrapper → Word.Fits t value →
    ∃ w' o, P.perform (.method Op.invokestatic
        ⟨wrapper, "valueOf", "(" ++ t.descriptor ++ ")L" ++ wrapper ++ ";"⟩) w (value ++ st) =
      .done w' (.object o :: st) ∧ Keeps w w' ∧ Wraps w' o t value
  cast : ∀ {w v c} (st), (v = .null ∨ ∃ o, v = .object o ∧ P.isA w o c = true) →
    ∃ w', P.perform (.type Op.checkcast c) w (v :: st) = .done w' (v :: st) ∧ Keeps w w'
  /-- What is asked is of the class with the method that is asked. -/
  isA_of_answers : ∀ {w o t value owner name descriptor},
    t.unboxing = JavaType.unwrapping owner name descriptor → Answers w o t value →
    P.isA w o owner = true
  ask : ∀ {w o t value owner name descriptor} (st),
    t.unboxing = JavaType.unwrapping owner name descriptor → Answers w o t value →
    ∃ w', P.perform (.method Op.invokevirtual ⟨owner, name, descriptor⟩) w (.object o :: st) =
      .done w' (value ++ st) ∧ Keeps w w'

namespace Platform.Boxing

variable {P : Platform} (B : P.Boxing)

/-- The value of a type as an element of an array: a reference as it is, any other value wrapped. -/
inductive Boxed (w : P.World) (t : JavaType) (value : List (Word P.Object)) : Word P.Object → Prop
  | reference {v : Word P.Object} : t.isReference = true → value = [v] → Boxed w t value v
  | primitive {o : P.Object} : t.isReference = false → B.Wraps w o t value → Boxed w t value (.object o)

/-- The element of an array can be cast to a type, and that is its value then: null or an object of the
class of the type, or for a primitive type an object that answers with a value of it. -/
inductive Castable (w : P.World) : JavaType → Word P.Object → List (Word P.Object) → Prop
  | null {t : JavaType} : t.isReference = true → Castable w t .null [.null]
  | object {t : JavaType} {o : P.Object} {c : String} : t.classOperand = some c →
    (c ≠ objectClass → P.isA w o c = true) → Castable w t (.object o) [.object o]
  | primitive {t : JavaType} {o : P.Object} {value : List (Word P.Object)} : t.isReference = false →
    Word.Fits t value → B.Answers w o t value → Castable w t (.object o) value

variable {B} {w w' : P.World} {t : JavaType} {v : Word P.Object} {value : List (Word P.Object)}

theorem Boxed.isReference (h : B.Boxed w t value v) (hv : Word.Fits t value) : v.IsReference := by
  cases h with
  | reference ht hvalue =>
    subst hvalue
    cases hv with
    | null => exact .inl rfl
    | object o => exact .inr ⟨o, rfl⟩
    | _ => cases ht
  | primitive _ _ => exact .inr ⟨_, rfl⟩

theorem Boxed.mono (hw : ∀ o t value, B.Wraps w o t value → B.Wraps w' o t value)
    (h : B.Boxed w t value v) : B.Boxed w' t value v := by
  cases h with
  | reference ht hvalue => exact .reference ht hvalue
  | primitive ht ho => exact .primitive ht (hw _ _ _ ho)

theorem isReference_of_classOperand {c : String} (h : t.classOperand = some c) :
    t.isReference = true := by
  cases t <;> first | rfl | cases h

theorem Castable.fits (h : B.Castable w t v value) : Word.Fits t value := by
  cases h with
  | null ht => exact .null ht
  | object ht _ => exact .object _ (isReference_of_classOperand ht)
  | primitive _ hv _ => exact hv

theorem Castable.keeps (hw : B.Keeps w w') (h : B.Castable w t v value) :
    B.Castable w' t v value := by
  cases h with
  | null ht => exact .null ht
  | object ht hc => exact .object ht fun hne => B.keeps_isA hw (hc hne)
  | primitive ht hv ho => exact .primitive ht hv (B.keeps_answers hw ho)

end Platform.Boxing

/-! ## Storing a value -/

namespace Stage

open Platform

variable {P : Platform} {q : Pool} {w : P.World} {τ : List (Word P.Object)} {ν : Nat → Word P.Object}
  {t : JavaType} {value : List (Word P.Object)}

/-- Local variables with a value in the slots from one on; its topmost slot comes first. -/
def storing (ν : Nat → Word P.Object) (k : Nat) : List (Word P.Object) → Nat → Word P.Object
  | [v] => fun j => if j = k then v else ν j
  | [v, u] => fun j => if j = k + 1 then v else if j = k then u else ν j
  | _ => ν

theorem slots_of_isReference (ht : t.isReference = true) :
    t.slots = 1 ∧ t.storeOpcode = Op.astore := by
  cases t with
  | object name => exact ⟨rfl, rfl⟩
  | array component => exact ⟨rfl, rfl⟩
  | _ => cases ht

theorem storing_goesOn (hv : Word.Fits t value) (slot : UInt16) :
    GoesOn P q (.var t.storeOpcode slot) ⟨w, value ++ τ, ν⟩ ⟨w, τ, storing ν slot.toNat value⟩ := by
  refine goesOn_plain ?_ (by cases t <;> rfl)
  cases hv with
  | null ht | object o ht =>
    rw [(slots_of_isReference ht).2]
    rfl
  | _ => rfl

theorem slotsOf_storing (hv : Word.Fits t value) (k : Nat) : slotsOf t (storing ν k value) k = value := by
  have one : ∀ v : Word P.Object, t.slots = 1 → slotsOf t (storing ν k [v]) k = [v] := by
    intro v ht
    unfold slotsOf storing
    rw [ht, if_neg (by decide)]
    simp only [if_true]
  have two : ∀ v u : Word P.Object, t.slots = 2 → slotsOf t (storing ν k [v, u]) k = [v, u] := by
    intro v u ht
    unfold slotsOf storing
    rw [ht, if_pos rfl]
    simp only [if_true, if_neg (Nat.ne_of_lt (Nat.lt_succ_self k))]
  cases hv with
  | null ht | object o ht => exact one _ (slots_of_isReference ht).1
  | long n | double bits => exact two _ _ rfl
  | _ => exact one _ rfl

/-- Storing a value changes its own slots only. -/
theorem storing_of_not_mem (hv : Word.Fits t value) {k j : Nat} (hj : j < k ∨ k + t.slots ≤ j) :
    storing ν k value j = ν j := by
  have one : ∀ v : Word P.Object, t.slots = 1 → storing ν k [v] j = ν j := by
    intro v ht
    rw [ht] at hj
    exact if_neg (by omega)
  have two : ∀ v u : Word P.Object, t.slots = 2 → storing ν k [v, u] j = ν j := by
    intro v u ht
    rw [ht] at hj
    exact (if_neg (by omega)).trans (if_neg (by omega))
  cases hv with
  | null ht | object o ht => exact one _ (slots_of_isReference ht).1
  | long n | double bits => exact two _ _ rfl
  | _ => exact one _ rfl

end Stage

/-! ## Templates wherever they stand -/

theorem Platform.Leads.mono {P : Platform} {q : Pool} {b : Body} {lo hi lo' hi' : Nat} {a c : P.Status}
    (hlo : lo' ≤ lo) (hhi : hi ≤ hi') (h : P.Leads q b lo hi a c) : P.Leads q b lo' hi' a c := by
  obtain ⟨n, hn, hevents⟩ := h
  refine ⟨n, hn, fun e he => ?_⟩
  have := hevents e he
  omega

namespace Template

variable {P : Platform} {q : Pool}

/-- Wherever the templates stand, they take one store to another. -/
def Moves (P : Platform) (q : Pool) (ts : List Template) (s t : P.Store) : Prop :=
  ∀ b k lo hi, Stands q b k ts → lo ≤ k → k + ts.length ≤ hi →
    P.Leads q b lo hi (.running k s) (.running (k + ts.length) t)

namespace Moves

variable {ts ts' : List Template} {x : Template} {s t u : P.Store}

theorem nil : Moves P q [] s s := fun _ _ _ _ _ _ _ => .refl

theorem append (h : Moves P q ts s t) (h' : Moves P q ts' t u) : Moves P q (ts ++ ts') s u := by
  intro b k lo hi hstands hlo hhi
  rw [List.length_append] at hhi ⊢
  rw [← Nat.add_assoc]
  exact (h b k lo hi hstands.left hlo (by omega)).trans
    (h' b _ lo hi hstands.right (by omega) (by omega))

theorem one (h : Stage.GoesOn P q x s t) : Moves P q [x] s t := by
  intro b k lo hi hstands hlo hhi
  exact hstands.next (j := 0) rfl hlo hhi h .refl

theorem cons (h : Stage.GoesOn P q x s t) (h' : Moves P q ts t u) : Moves P q (x :: ts) s u :=
  append (.one h) h'

end Moves

end Template

/-! ## Boxing and unboxing -/

namespace Platform.Boxing

open Stage Template

variable {P : Platform} (B : P.Boxing) {q : Pool} {w : P.World} {τ : List (Word P.Object)}
  {ν : Nat → Word P.Object}

theorem boxing_moves {t : JavaType} {value : List (Word P.Object)} (hv : Word.Fits t value) :
    ∃ w1 v, Moves P q t.boxing ⟨w, value ++ τ, ν⟩ ⟨w1, v :: τ, ν⟩ ∧ B.Keeps w w1 ∧
      B.Boxed w1 t value v := by
  cases ht : t.isReference with
  | true =>
    rw [boxing_reference ht]
    cases hv with
    | null => exact ⟨w, _, .nil, B.refl w, .reference ht rfl⟩
    | object o => exact ⟨w, _, .nil, B.refl w, .reference ht rfl⟩
    | _ => cases ht
  | false =>
    obtain ⟨wrapper, hclass, hboxing⟩ := boxing_primitive hv ht
    obtain ⟨w1, o, hbox, hkeeps, hwraps⟩ := B.box w τ hclass hv
    rw [hboxing]
    exact ⟨w1, _, .one (goesOn_method rfl hbox), hkeeps, .primitive ht hwraps⟩

theorem unboxing_moves {t : JavaType} {v : Word P.Object} {value : List (Word P.Object)}
    (h : B.Castable w t v value) :
    ∃ w1, Moves P q t.unboxing ⟨w, v :: τ, ν⟩ ⟨w1, value ++ τ, ν⟩ ∧ B.Keeps w w1 := by
  -- a reference is cast unless every object is of the class
  have cast : ∀ c, t.unboxing = (if c = objectClass then [] else [.type Op.checkcast c]) →
      (c ≠ objectClass → v = .null ∨ ∃ o, v = .object o ∧ P.isA w o c = true) →
      ∃ w1, Moves P q t.unboxing ⟨w, v :: τ, ν⟩ ⟨w1, v :: τ, ν⟩ ∧ B.Keeps w w1 := by
    intro c hunboxing hclass
    rw [hunboxing]
    split
    · exact ⟨w, .nil, B.refl w⟩
    · obtain ⟨w1, hcast, hkeeps⟩ := B.cast τ (hclass ‹_›)
      exact ⟨w1, .one (goesOn_type rfl hcast), hkeeps⟩
  cases h with
  | null ht =>
    cases t with
    | object name => exact cast name rfl fun _ => .inl rfl
    | array component => exact cast _ rfl fun _ => .inl rfl
    | _ => cases ht
  | object hc hclass =>
    rename_i o c
    have hclass' : c ≠ objectClass → (.object o : Word P.Object) = .null ∨
        ∃ o', (.object o : Word P.Object) = .object o' ∧ P.isA w o' c = true :=
      fun hne => .inr ⟨o, rfl, hclass hne⟩
    cases t with
    | object name =>
      cases hc
      exact cast _ rfl hclass'
    | array component =>
      cases hc
      exact cast _ rfl hclass'
    | _ => cases hc
  | primitive ht hv ho =>
    rename_i o
    obtain ⟨owner, name, descriptor, hunboxing⟩ : ∃ owner name descriptor,
        t.unboxing = JavaType.unwrapping owner name descriptor := by
      cases hv with
      | null h => rw [ht] at h; cases h
      | object o h => rw [ht] at h; cases h
      | _ => exact ⟨_, _, _, rfl⟩
    obtain ⟨w1, hcast, hkeeps⟩ := B.cast τ (.inr ⟨o, rfl, B.isA_of_answers hunboxing ho⟩)
    obtain ⟨w2, hask, hkeeps'⟩ := B.ask τ hunboxing (B.keeps_answers hkeeps ho)
    rw [hunboxing]
    exact ⟨w2, .cons (goesOn_type rfl hcast) (.one (goesOn_method rfl hask)),
      B.trans hkeeps hkeeps'⟩

/-! ## The array -/

variable {parameters : List (JavaType × UInt16)} {a : P.Object}

/-- Filling the array of the arguments, from an index on. -/
theorem filling_moves (k : Nat) {elements : List (Word P.Object)}
    (hfits : ∀ p ∈ parameters, Word.Fits p.1 (slotsOf p.1 ν p.2.toNat))
    (hlen : elements.length = k + parameters.length) (hcount : elements.length < 65536)
    (ha : B.elements w a = some elements) : ∃ w1 elements1,
    Moves P q ((parameters.zipIdx k).flatMap fun ((t, slot), i) =>
        [Template.op Op.dup, .pushInt (Int32.ofNat i), .var t.loadOpcode slot] ++ t.boxing ++ [.op Op.aastore])
      ⟨w, .object a :: τ, ν⟩ ⟨w1, .object a :: τ, ν⟩ ∧
    B.elements w1 a = some elements1 ∧ elements1.length = elements.length ∧
    (∀ o t value, B.Wraps w o t value → B.Wraps w1 o t value) ∧
    (∀ j < k, elements1[j]? = elements[j]?) ∧
    ∀ j p, parameters[j]? = some p →
      ∃ v, elements1[k + j]? = some v ∧ B.Boxed w1 p.1 (slotsOf p.1 ν p.2.toNat) v := by
  induction parameters generalizing k w elements with
  | nil =>
    exact ⟨w, elements, .nil, ha, rfl, fun _ _ _ h => h, fun _ _ => rfl, fun j p h => nomatch h⟩
  | cons p rest ih =>
    obtain ⟨t, slot⟩ := p
    rw [List.length_cons] at hlen
    have hfit := hfits _ (List.mem_cons_self ..)
    obtain ⟨w1, v, hboxing, hkeeps, hboxed⟩ := B.boxing_moves (q := q) (w := w) (ν := ν)
      (τ := .int (Int32.ofNat k) :: .object a :: .object a :: τ) hfit
    obtain ⟨w2, hfill, ha2, hwraps⟩ := B.fill (i := k) (.object a :: τ) (B.keeps_elements hkeeps ha)
      (by omega) (by omega) (hboxed.isReference hfit)
    obtain ⟨w3, elements1, hrest, ha3, hlen3, hwraps3, hbefore, hboxes⟩ := ih (k + 1)
      (fun p hp => hfits p (List.mem_cons_of_mem _ hp)) (by rw [List.length_set]; omega)
      (by rwa [List.length_set]) ha2
    refine ⟨w3, elements1, ?_, ha3, by rw [hlen3, List.length_set], fun o t value h => ?_,
      fun j hj => ?_, fun j p hp => ?_⟩
    · rw [List.zipIdx_cons, List.flatMap_cons]
      refine .append (.append (.append ?_ hboxing) (.one (goesOn_element (.inr rfl) hfill))) hrest
      exact .cons (goesOn_plain (i := .simple Op.dup) rfl rfl)
        (.cons (goesOn_pushInt _) (.one (load_goesOn t slot)))
    · exact hwraps3 o t value (hwraps o t value (B.keeps_wraps hkeeps h))
    · rw [hbefore j (by omega), List.getElem?_set_ne (by omega)]
    · cases j with
      | zero =>
        cases hp
        refine ⟨v, ?_, (hboxed.mono hwraps).mono hwraps3⟩
        rw [Nat.add_zero, hbefore k (Nat.lt_succ_self k), List.getElem?_set_self (by omega)]
      | succ j =>
        obtain ⟨v', hv', hboxed'⟩ := hboxes j p hp
        refine ⟨v', ?_, hboxed'⟩
        rw [← hv']
        congr 1
        omega

/-- The arguments in an array. -/
theorem packing_moves (hcount : parameters.length < 65536)
    (hfits : ∀ p ∈ parameters, Word.Fits p.1 (slotsOf p.1 ν p.2.toNat)) : ∃ w1 a elements,
    Moves P q (Block.packing parameters) ⟨w, τ, ν⟩ ⟨w1, .object a :: τ, ν⟩ ∧
    B.elements w1 a = some elements ∧ elements.length = parameters.length ∧
    ∀ (j : Nat) (p : JavaType × UInt16), parameters[j]? = some p →
      ∃ v, elements[j]? = some v ∧ B.Boxed w1 p.1 (slotsOf p.1 ν p.2.toNat) v := by
  obtain ⟨w1, a, harray, -, ha⟩ := B.newArray w τ hcount
  obtain ⟨w2, elements, hfill, ha2, hlen, -, -, hboxes⟩ := B.filling_moves (q := q) (τ := τ) 0 hfits
    (by rw [List.length_replicate, Nat.zero_add]) (by rwa [List.length_replicate]) ha
  refine ⟨w2, a, elements, .append ?_ hfill, ha2, by rw [hlen, List.length_replicate],
    fun j p hp => ?_⟩
  · exact .cons (goesOn_pushInt _) (.one (goesOn_type rfl harray))
  · obtain ⟨v, hv, hboxed⟩ := hboxes j p hp
    rw [Nat.zero_add] at hv
    exact ⟨v, hv, hboxed⟩

/-- Storing the elements of the array into the parameters, whose slots follow each other below the one
that keeps the array. -/
theorem unpacking_moves (k : Nat) (first : UInt16) {arguments : UInt16} {ts : List JavaType}
    {elements : List (Word P.Object)} (values : Nat → List (Word P.Object))
    (hroom : first.toNat + (ts.map JavaType.slots).sum ≤ arguments.toNat)
    (hν : ν arguments.toNat = .object a) (ha : B.elements w a = some elements)
    (hcount : k + ts.length ≤ 65536)
    (hcastable : ∀ j t, ts[j]? = some t →
      ∃ v, elements[k + j]? = some v ∧ B.Castable w t v (values j)) : ∃ w1 ν1,
    Moves P q (((Block.parameterSlots first ts).zipIdx k).flatMap fun ((t, slot), i) =>
        [Template.var Op.aload arguments, .pushInt (Int32.ofNat i), .op Op.aaload] ++ t.unboxing ++
          [Template.var t.storeOpcode slot])
      ⟨w, τ, ν⟩ ⟨w1, τ, ν1⟩ ∧
    (∀ j t, ts[j]? = some t →
      slotsOf t ν1 (first.toNat + ((ts.take j).map JavaType.slots).sum) = values j) ∧
    ∀ x, x < first.toNat ∨ first.toNat + (ts.map JavaType.slots).sum ≤ x → ν1 x = ν x := by
  induction ts generalizing k first w ν values with
  | nil => exact ⟨w, ν, .nil, (fun j t h => nomatch h), fun _ _ => rfl⟩
  | cons t ts ih =>
    have hslot : arguments.toNat ≤ 0xFFFF := Nat.le_of_lt_succ arguments.toNat_lt
    have hnext := Block.toNat_add_slots (Nat.le_trans hroom hslot)
    rw [List.map_cons, List.sum_cons] at hroom ⊢
    rw [List.length_cons] at hcount
    obtain ⟨v, hv, hcast⟩ := hcastable 0 t rfl
    have hfits := hcast.fits
    obtain ⟨w1, helement, hkeeps⟩ := B.element τ ha hv (by omega)
    obtain ⟨w2, hunboxing, hkeeps2⟩ := B.unboxing_moves (q := q) (τ := τ) (ν := ν) (hcast.keeps hkeeps)
    have hkept := B.trans hkeeps hkeeps2
    obtain ⟨w3, ν1, hrest, hvalues, hother⟩ := ih (ν := storing ν first.toNat (values 0)) (k + 1)
      (first + UInt16.ofNat t.slots) (fun j => values (j + 1)) (by omega)
      (by rw [storing_of_not_mem hfits (.inr (by omega)), hν]) (B.keeps_elements hkept ha) (by omega)
      fun j u hu => by
        obtain ⟨v, hv, hcast⟩ := hcastable (j + 1) u hu
        refine ⟨v, ?_, hcast.keeps hkept⟩
        rw [← hv]
        congr 1
        omega
    rw [hnext] at hvalues hother
    refine ⟨w3, ν1, ?_, fun j u hu => ?_, fun x hx => ?_⟩
    · rw [Block.parameterSlots, List.zipIdx_cons, List.flatMap_cons]
      have hload : GoesOn P q (.var Op.aload arguments) ⟨w, τ, ν⟩ ⟨w, .object a :: τ, ν⟩ := by
        rw [← hν]
        exact goesOn_plain (i := .var Op.aload arguments) rfl rfl
      refine .append (.append (.append ?_ hunboxing) (.one (storing_goesOn hfits first))) hrest
      exact .cons hload (.cons (goesOn_pushInt _) (.one (goesOn_element (.inl rfl) helement)))
    · cases j with
      | zero =>
        cases hu
        -- the later parameters lie behind this one
        rw [List.take_zero, List.map_nil, List.sum_nil, Nat.add_zero]
        refine Eq.trans ?_ (slotsOf_storing (ν := ν) hfits first.toNat)
        exact slotsOf_eq hfits fun x hx => hother x (.inl hx)
      | succ j =>
        rw [List.take_succ_cons, List.map_cons, List.sum_cons, ← Nat.add_assoc]
        exact hvalues j u hu
    · rw [hother x (by omega), storing_of_not_mem hfits (by omega)]

end Platform.Boxing

/-! ## The report of the start -/

namespace WeaveSite

variable (s : WeaveSite) (arguments : UInt16) (l : Label)

def startFront : List Template :=
  Marker.opening ++ (Block.packing s.parameters ++
    ([Template.var Op.astore arguments, .var Op.aload arguments] ++ Block.address s.plan ++
      [Template.pushInt s.plan.loader, .pushString s.plan.className, .pushString s.context.name,
        .pushString s.context.descriptor.descriptor,
        if s.context.isStatic then .op Op.aconstNull else .var Op.aload 0]))

def startBack : List Template :=
  Block.unpacking arguments s.parameters ++ Marker.closing

/-- The report of the start is a dispatch with the check of its verdict between two parts. -/
theorem startReport_eq : s.startReport arguments l = s.startFront arguments ++
    ([Block.invocation .before] ++ (Block.verdictCheck s.returnType l (l + 1) ++ s.startBack arguments)) := by
  simp only [startReport, startFront, startBack, Marker.around, Block.beforeDispatch, List.append_assoc,
    List.cons_append, List.nil_append]

variable {s arguments}

theorem firstParameter_toNat : s.firstParameter.toNat = s.context.receiverSlots := by
  unfold firstParameter MethodContext.receiverSlots
  split <;> rfl

theorem getElem?_parameters {t : JavaType} {slot : UInt16} {i : Nat}
    (hroom : s.context.receiverSlots + s.context.descriptor.parameterSlots ≤ arguments.toNat) :
    s.parameters[i]? = some (t, slot) ↔
      s.context.descriptor.parameters[i]? = some t ∧ slot.toNat = s.context.slotOf i := by
  have hslot : arguments.toNat ≤ 0xFFFF := Nat.le_of_lt_succ arguments.toNat_lt
  unfold parameters MethodContext.slotOf
  rw [← firstParameter_toNat] at hroom ⊢
  exact Block.getElem?_parameterSlots (Nat.le_trans hroom hslot)

open Platform Stage Template

variable {P : Platform} (B : P.Boxing) {q : Pool} {w : P.World} {τ : List (Word P.Object)}
  {ν : Nat → Word P.Object}

/-- The operands of the dispatch of the start have an array with the boxed parameters first. -/
structure Passed (s : WeaveSite) (w : P.World) (ν : Nat → Word P.Object)
    (operands : List (Word P.Object)) (a : P.Object) : Prop where
  count : operands.length = (Spy.parameterTypes .before).length
  first : operands.getLast? = some (.object a)
  boxed : ∃ elements, B.elements w a = some elements ∧
    elements.length = s.context.descriptor.parameters.length ∧
    ∀ i t, s.context.descriptor.parameters[i]? = some t →
      ∃ v, elements[i]? = some v ∧ B.Boxed w t (slotsOf t ν (s.context.slotOf i)) v

/-- What instructions from a number up to another do with the parameters: a dispatch among them is passed
an array of them, and what it leaves there is taken for them. -/
structure HandsOver (s : WeaveSite) (arguments : UInt16) (q : Pool) (b : Body) (lo hi : Nat) (u : P.Store)
    (i : Nat) (w1 : P.World) (operands : List (Word P.Object)) (a : P.Object) : Prop where
  lo_le : lo ≤ i
  lt_hi : i < hi
  dispatch : ∃ index, b.insns[i]? = some (.method Op.invokestatic index) ∧
    q.memberRef index = .ok (Spy.method .before)
  arrives : ∃ ν1, P.Leads q b lo hi (.running lo u) (.running i ⟨w1, operands ++ u.stack, ν1⟩)
  passed : s.Passed B w1 u.locals operands a
  /-- If the answer is a verdict to go on and elements that can be cast are left in the array, the run
  ends with them in the slots of the parameters, and with the stack and every other slot as before but the
  one of the array. -/
  writesBack : ∀ (w2 : P.World) (r : P.Object) (v : Word P.Object) (elements : List (Word P.Object))
    (values : Nat → List (Word P.Object)),
    P.perform (.method Op.invokestatic (Spy.method .before)) w1 (operands ++ u.stack) =
      .done w2 (.object r :: u.stack) →
    P.IsVerdict w2 r Spy.stateContinue v → B.elements w2 a = some elements →
    (∀ i t, s.context.descriptor.parameters[i]? = some t →
      ∃ element, elements[i]? = some element ∧ B.Castable w2 t element (values i)) →
    ∃ w3 ν3, P.Leads q b lo hi (.running lo u) (.running hi ⟨w3, u.stack, ν3⟩) ∧
      (∀ i t, s.context.descriptor.parameters[i]? = some t →
        slotsOf t ν3 (s.context.slotOf i) = values i) ∧
      ∀ x, x ≠ arguments.toNat → (x < s.context.receiverSlots ∨
        s.context.receiverSlots + s.context.descriptor.parameterSlots ≤ x) → ν3 x = u.locals x

variable (hroom : s.context.receiverSlots + s.context.descriptor.parameterSlots ≤ arguments.toNat)
  (hfits : ∀ i t, s.context.descriptor.parameters[i]? = some t →
    Word.Fits t (slotsOf t ν (s.context.slotOf i)))
include hroom hfits

/-- In front of its dispatch the report has the array with the boxed parameters in a local variable and
on the stack, with the other operands above it. -/
theorem startFront_moves : ∃ w1 operands a,
    Moves P q (s.startFront arguments) ⟨w, τ, ν⟩
      ⟨w1, operands ++ τ, fun k => if k = arguments.toNat then .object a else ν k⟩ ∧
    s.Passed B w1 ν operands a := by
  have hlen : s.parameters.length = s.context.descriptor.parameters.length :=
    Block.length_parameterSlots _ _
  have hcount := MethodDescriptor.length_parameters_le fun i t ht => (hfits i t ht).slots_pos
  have hslot : arguments.toNat < 65536 := arguments.toNat_lt
  have hboxable : ∀ p ∈ s.parameters, Word.Fits p.1 (slotsOf p.1 ν p.2.toNat) := by
    intro p hp
    obtain ⟨i, hi⟩ := List.mem_iff_getElem?.1 hp
    obtain ⟨ht, hslot⟩ := (getElem?_parameters hroom).1 hi
    rw [hslot]
    exact hfits i _ ht
  obtain ⟨w1, a, elements, hpacking, ha, hlength, hboxes⟩ :=
    B.packing_moves (q := q) (w := w) (τ := τ) (by omega) hboxable
  obtain ⟨w2, space, hspace, hkeeps2⟩ := B.text s.plan.space w1 (.object a :: τ)
  obtain ⟨w3, name, hname, hkeeps3⟩ := B.text s.plan.className w2
    (.int s.plan.loader :: .int s.plan.listener :: .object space :: .object a :: τ)
  obtain ⟨w4, method, hmethod, hkeeps4⟩ := B.text s.context.name w3
    (.object name :: .int s.plan.loader :: .int s.plan.listener :: .object space :: .object a :: τ)
  obtain ⟨w5, descriptor, hdescriptor, hkeeps5⟩ := B.text s.context.descriptor.descriptor w4
    (.object method :: .object name :: .int s.plan.loader :: .int s.plan.listener ::
      .object space :: .object a :: τ)
  have hkeeps := B.trans hkeeps2 (B.trans hkeeps3 (B.trans hkeeps4 hkeeps5))
  let ν1 : Nat → Word P.Object := fun k => if k = arguments.toNat then .object a else ν k
  obtain ⟨this, hthis⟩ : ∃ this, GoesOn P q
      (if s.context.isStatic then .op Op.aconstNull else .var Op.aload 0)
      ⟨w5, [.object descriptor, .object method, .object name, .int s.plan.loader,
        .int s.plan.listener, .object space, .object a] ++ τ, ν1⟩
      ⟨w5, this :: [.object descriptor, .object method, .object name, .int s.plan.loader,
        .int s.plan.listener, .object space, .object a] ++ τ, ν1⟩ := by
    split
    · exact ⟨_, goesOn_plain (i := .simple Op.aconstNull) rfl rfl⟩
    · exact ⟨_, goesOn_plain (i := .var Op.aload 0) rfl rfl⟩
  have hload : GoesOn P q (.var Op.aload arguments) ⟨w1, τ, ν1⟩ ⟨w1, .object a :: τ, ν1⟩ := by
    have : ν1 arguments.toNat = .object a := if_pos rfl
    rw [← this]
    exact goesOn_plain (i := .var Op.aload arguments) rfl rfl
  refine ⟨w5, [this, .object descriptor, .object method, .object name, .int s.plan.loader,
    .int s.plan.listener, .object space, .object a], a, ?_, rfl, rfl, elements,
    B.keeps_elements hkeeps ha, hlength.trans hlen, fun i t ht => ?_⟩
  · refine .append (.cons (goesOn_plain (i := .simple Op.iconst2) rfl rfl)
      (.one (goesOn_plain (i := .simple Op.pop) rfl rfl))) (.append hpacking ?_)
    exact .cons (goesOn_plain (i := .var Op.astore arguments) rfl rfl) (.cons hload
      (.cons (goesOn_pushString hspace) (.cons (goesOn_pushInt _) (.cons (goesOn_pushInt _)
      (.cons (goesOn_pushString hname) (.cons (goesOn_pushString hmethod)
      (.cons (goesOn_pushString hdescriptor) (.one hthis))))))))
  · have hlt := (List.getElem?_eq_some_iff.1 ht).1
    obtain ⟨p, hp⟩ : ∃ p, s.parameters[i]? = some p := ⟨_, List.getElem?_eq_getElem (by omega)⟩
    obtain ⟨t', slot⟩ := p
    obtain ⟨ht', hslot⟩ := (getElem?_parameters hroom).1 hp
    rw [ht] at ht'
    cases ht'
    obtain ⟨v, hv, hboxed⟩ := hboxes i _ hp
    rw [hslot] at hboxed
    exact ⟨v, hv, hboxed.mono fun _ _ _ => B.keeps_wraps hkeeps⟩

omit hfits in
/-- The elements of the array are stored into the parameters. -/
theorem startBack_moves {elements : List (Word P.Object)} {a : P.Object}
    {values : Nat → List (Word P.Object)} (hν : ν arguments.toNat = .object a)
    (ha : B.elements w a = some elements)
    (hcastable : ∀ i t, s.context.descriptor.parameters[i]? = some t →
      ∃ v, elements[i]? = some v ∧ B.Castable w t v (values i)) : ∃ w1 ν1,
    Moves P q (s.startBack arguments) ⟨w, τ, ν⟩ ⟨w1, τ, ν1⟩ ∧
    (∀ i t, s.context.descriptor.parameters[i]? = some t →
      slotsOf t ν1 (s.context.slotOf i) = values i) ∧
    ∀ k, k < s.context.receiverSlots ∨
      s.context.receiverSlots + s.context.descriptor.parameterSlots ≤ k → ν1 k = ν k := by
  have hcount := MethodDescriptor.length_parameters_le fun i t ht => by
    obtain ⟨v, -, hcast⟩ := hcastable i t ht
    exact hcast.fits.slots_pos
  have hslot : arguments.toNat < 65536 := arguments.toNat_lt
  have hroom' := hroom
  rw [← firstParameter_toNat] at hroom'
  obtain ⟨w1, ν1, hunpacking, hvalues, hother⟩ := B.unpacking_moves (q := q) (τ := τ) 0
    s.firstParameter values hroom' hν ha (by omega)
    (by simpa only [Nat.zero_add] using hcastable)
  rw [firstParameter_toNat] at hvalues hother
  refine ⟨w1, ν1, .append hunpacking ?_, hvalues, hother⟩
  exact .cons (goesOn_plain (i := .simple Op.iconst3) rfl rfl)
    (.one (goesOn_plain (i := .simple Op.pop) rfl rfl))

/-- Wherever the report of the start stands, it hands the parameters over. -/
theorem startReport_handsOver {b : Body} {k : Nat} {l : Label}
    (hstands : Stands q b k (s.startReport arguments l)) : ∃ i w1 operands a,
    s.HandsOver B arguments q b k (k + (s.startReport arguments l).length) ⟨w, τ, ν⟩ i w1 operands a := by
  obtain ⟨w1, operands, a, hfront, hpassed⟩ := startFront_moves B (q := q) (w := w) (τ := τ) hroom hfits
  rw [startReport_eq] at hstands ⊢
  have hlength : (s.startFront arguments ++ ([Block.invocation .before] ++
      (Block.verdictCheck s.returnType l (l + 1) ++ s.startBack arguments))).length =
      (s.startFront arguments).length + (1 + ((Block.verdictCheck s.returnType l (l + 1)).length +
        (s.startBack arguments).length)) := by
    simp only [List.length_append, List.length_singleton]
  rw [hlength]
  have dispatch := hstands.right.left
  have check := hstands.right.right.left
  have back := hstands.right.right.right
  rw [List.length_singleton] at check back
  have arrives {hi : Nat} (hhi : k + (s.startFront arguments).length ≤ hi) :=
    hfront b k k hi hstands.left (Nat.le_refl k) hhi
  generalize (s.startFront arguments).length = m at *
  refine ⟨k + m, w1, operands, a, by omega, by omega, ?_, ⟨_, arrives (by omega)⟩, hpassed, ?_⟩
  · obtain ⟨i, hi, hsettles⟩ := dispatch.insn 0 _ rfl
    cases hsettles with
    | method hc => exact ⟨_, hi, hc⟩
  · intro w2 r v elements values hperform hverdict helements hcastable
    obtain ⟨w3, ν3, hback, hvalues, hother⟩ := startBack_moves B (s := s) (q := q) (w := w2) (τ := τ)
      (ν := fun k => if k = arguments.toNat then .object a else ν k) hroom (if_pos rfl) helements
      hcastable
    refine ⟨w3, ν3, ?_, hvalues, fun x hx hout => (hother x hout).trans (if_neg hx)⟩
    refine (arrives (by omega)).trans ?_
    refine dispatch.next (j := 0) rfl (by omega) (by omega) (goesOn_method rfl hperform) ?_
    have checked := (check.resolves hverdict τ fun k => if k = arguments.toNat then .object a else ν k).goesOn
      (by decide) (by decide)
    refine (checked.mono (by omega) (by omega)).trans ?_
    have stored := hback b _ k (k + (m + (1 + ((Block.verdictCheck s.returnType l (l + 1)).length +
      (s.startBack arguments).length)))) back (by omega) (by omega)
    convert stored using 2
    omega

end WeaveSite

end Interpose
