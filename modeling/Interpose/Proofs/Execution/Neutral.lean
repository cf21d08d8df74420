import Mathlib.Data.List.Forall2
import Interpose.Proofs.Execution.Platform
import Interpose.Proofs.Pool.Growth
import Interpose.Weave.Block
/-!
# Reports that change nothing

Reports allocate: the arguments in an array, boxes, texts and verdicts. So a method that reports runs
beside further objects, and its own objects may be other ones than without reports, one for one. A
platform is neutral when what is beside a method makes no difference to its operations, when every
report is answered with the verdict to go on, and when objects made by reports are what they should be
(`Platform.Neutral`). What one instruction does is then alike (`Neutral.act_follows`).
-/

namespace Interpose

/-- The same values, with objects for each other. -/
inductive Word.Alike {Object : Type} (ρ : Object → Object → Prop) : Word Object → Word Object → Prop
  | int (n : Int32) : Alike ρ (.int n) (.int n)
  | float (bits : UInt32) : Alike ρ (.float bits) (.float bits)
  | long (n : Int64) : Alike ρ (.long n) (.long n)
  | double (bits : UInt64) : Alike ρ (.double bits) (.double bits)
  | second : Alike ρ .second .second
  | null : Alike ρ .null .null
  | object {o o' : Object} : ρ o o' → Alike ρ (.object o) (.object o')
  | address (i : Nat) : Alike ρ (.address i) (.address i)

/-- The slots of a value of a type, the topmost first. No value is `void`. -/
inductive Word.Fits {Object : Type} : JavaType → List (Word Object) → Prop
  | boolean (n : Int32) : Fits .boolean [.int n]
  | byte (n : Int32) : Fits .byte [.int n]
  | char (n : Int32) : Fits .char [.int n]
  | short (n : Int32) : Fits .short [.int n]
  | int (n : Int32) : Fits .int [.int n]
  | float (bits : UInt32) : Fits .float [.float bits]
  | long (n : Int64) : Fits .long [.second, .long n]
  | double (bits : UInt64) : Fits .double [.second, .double bits]
  | null {t : JavaType} : t.isReference → Fits t [.null]
  | object {t : JavaType} (o : Object) : t.isReference → Fits t [.object o]

/-- The value is one that a variable of the type can have. -/
def Platform.Conforms (P : Platform) (world : P.World) (t : JavaType) (value : List (Word P.Object)) :
    Prop :=
  Word.Fits t value ∧
    match t, value with
    | .boolean, [.int n] => n = 0 ∨ n = 1
    | .byte, [.int n] => -128 ≤ n.toInt ∧ n.toInt ≤ 127
    | .char, [.int n] => 0 ≤ n.toInt ∧ n.toInt ≤ 65535
    | .short, [.int n] => -32768 ≤ n.toInt ∧ n.toInt ≤ 32767
    | _, [.object o] => ∀ c, t.classOperand = some c → P.isA world o c = true
    | _, _ => True

/-- What reports keep beside a method. -/
inductive Aside (Object : Type) where
  | array (elements : List (Word Object))
  /-- A wrapper of a primitive value. -/
  | box (t : JavaType) (value : List (Word Object))
  | verdict
  /-- A class, as an object. -/
  | classObject

/-- Reports make no difference on the platform. In `Beside w w' ρ xs` the second world is the first with
further objects, among them those in the list, and `ρ` pairs the objects of the method in the two. -/
structure Platform.Neutral (P : Platform) (own : Operation → Prop) where
  Beside : P.World → P.World → (P.Object → P.Object → Prop) → List (P.Object × Aside P.Object) → Prop
  /-- What is beside a method can be left to itself. -/
  forget : ∀ {w w' ρ xs}, Beside w w' ρ xs → Beside w w' ρ []
  /-- Objects are paired one to one. -/
  paired : ∀ {w w' ρ xs a a' b b'}, Beside w w' ρ xs → ρ a a' → ρ b b' → (a = b ↔ a' = b')
  isA : ∀ {w w' ρ xs o o'}, Beside w w' ρ xs → ρ o o' → ∀ c, P.isA w o c = P.isA w' o' c
  /-- The method's own operations do not see what is beside it. -/
  done : ∀ {w w' ρ op st st' w1 st1}, own op → Beside w w' ρ [] →
    List.Forall₂ (Word.Alike ρ) st st' → P.perform op w st = .done w1 st1 →
    ∃ w1' st1' ρ1, P.perform op w' st' = .done w1' st1' ∧ (∀ o o', ρ o o' → ρ1 o o') ∧
      Beside w1 w1' ρ1 [] ∧ List.Forall₂ (Word.Alike ρ1) st1 st1'
  thrown : ∀ {w w' ρ op st st' w1 o}, own op → Beside w w' ρ [] →
    List.Forall₂ (Word.Alike ρ) st st' → P.perform op w st = .thrown w1 o →
    ∃ w1' o' ρ1, P.perform op w' st' = .thrown w1' o' ∧ (∀ o o', ρ o o' → ρ1 o o') ∧
      Beside w1 w1' ρ1 [] ∧ ρ1 o o'
  text : ∀ {w w' ρ xs} (text : String) (st), Beside w w' ρ xs →
    ∃ w1 o, P.perform (.text text) w' st = .done w1 (.object o :: st) ∧ Beside w w1 ρ xs
  /-- Values can be wrapped, and come out again as they were. -/
  box : ∀ {w w' ρ xs t wrapper value} (st), Beside w w' ρ xs → t.boxClass = some wrapper →
    Word.Fits t value →
    ∃ w1 o, P.perform (.method Op.invokestatic
        ⟨wrapper, "valueOf", "(" ++ t.descriptor ++ ")L" ++ wrapper ++ ";"⟩) w' (value ++ st) =
      .done w1 (.object o :: st) ∧ Beside w w1 ρ ((o, .box t value) :: xs)
  unbox : ∀ {w w' ρ xs o t value owner name descriptor} (st), Beside w w' ρ xs →
    (o, .box t value) ∈ xs → t.unboxing = JavaType.unwrapping owner name descriptor →
    P.Conforms w t value →
    ∃ w1, P.perform (.method Op.invokevirtual ⟨owner, name, descriptor⟩) w' (.object o :: st) =
      .done w1 (value ++ st) ∧ Beside w w1 ρ xs
  castBox : ∀ {w w' ρ xs o t value owner name descriptor} (st), Beside w w' ρ xs →
    (o, .box t value) ∈ xs → t.unboxing = JavaType.unwrapping owner name descriptor →
    ∃ w1, P.perform (.type Op.checkcast owner) w' (.object o :: st) = .done w1 (.object o :: st) ∧
      Beside w w1 ρ xs
  /-- A cast to a class of the object does nothing. -/
  cast : ∀ {w w' ρ xs v c} (st), Beside w w' ρ xs →
    (v = .null ∨ ∃ o, v = .object o ∧ P.isA w' o c = true) →
    ∃ w1, P.perform (.type Op.checkcast c) w' (v :: st) = .done w1 (v :: st) ∧ Beside w w1 ρ xs
  array : ∀ {w w' ρ xs} {n : Nat} (st), Beside w w' ρ xs → n < 65536 →
    ∃ w1 a, P.perform (.type Op.anewarray objectClass) w' (.int (Int32.ofNat n) :: st) =
      .done w1 (.object a :: st) ∧ Beside w w1 ρ ((a, .array (List.replicate n .null)) :: xs)
  fill : ∀ {w w' ρ xs ys a elements i v} (st), Beside w w' ρ (xs ++ (a, .array elements) :: ys) →
    i < elements.length →
    ∃ w1, P.perform (.simple Op.aastore) w' (v :: .int (Int32.ofNat i) :: .object a :: st) =
      .done w1 st ∧ Beside w w1 ρ (xs ++ (a, .array (elements.set i v)) :: ys)
  element : ∀ {w w' ρ xs a elements i v} (st), Beside w w' ρ xs → (a, .array elements) ∈ xs →
    elements[i]? = some v →
    ∃ w1, P.perform (.simple Op.aaload) w' (.int (Int32.ofNat i) :: .object a :: st) =
      .done w1 (v :: st) ∧ Beside w w1 ρ xs
  /-- Every report is answered, and what it is given stays as it is. -/
  report : ∀ {w w' ρ xs} (k : EventKind) (operands st), Beside w w' ρ xs →
    operands.length = (Spy.parameterTypes k).length →
    ∃ w1 r, P.perform (.method Op.invokestatic (Spy.method k)) w' (operands ++ st) =
      .done w1 (.object r :: st) ∧ Beside w w1 ρ ((r, .verdict) :: xs)
  /-- The answer is to go on. -/
  state : ∀ {w w' ρ xs r} (st), Beside w w' ρ xs → (r, .verdict) ∈ xs →
    ∃ w1, P.perform (.field Op.getfield Spy.stateField) w' (.object r :: st) =
      .done w1 (.int Spy.stateContinue :: st) ∧ Beside w w1 ρ xs
  getClass : ∀ {w w' ρ xs o o'} (st), Beside w w' ρ xs → ρ o o' →
    ∃ w1 c, P.perform (.method Op.invokevirtual ⟨objectClass, "getClass", "()Ljava/lang/Class;"⟩) w'
        (.object o' :: st) = .done w1 (.object c :: st) ∧ Beside w w1 ρ ((c, .classObject) :: xs)
  getName : ∀ {w w' ρ xs c} (st), Beside w w' ρ xs → (c, .classObject) ∈ xs →
    ∃ w1 n, P.perform (.method Op.invokevirtual ⟨"java/lang/Class", "getName", "()Ljava/lang/String;"⟩)
        w' (.object c :: st) = .done w1 (.object n :: st) ∧ Beside w w1 ρ xs

namespace Word

variable {Object : Type} {ρ ρ1 : Object → Object → Prop}

theorem Alike.mono (h : ∀ o o', ρ o o' → ρ1 o o') {v v' : Word Object} (hv : Alike ρ v v') :
    Alike ρ1 v v' := by
  cases hv with
  | object hv => exact .object (h _ _ hv)
  | _ => constructor

theorem alike_mono (h : ∀ o o', ρ o o' → ρ1 o o') {st st' : List (Word Object)}
    (hs : List.Forall₂ (Alike ρ) st st') : List.Forall₂ (Alike ρ1) st st' :=
  hs.imp fun _ _ hv => hv.mono h

def isPlain : Word Object → Bool
  | object _ => false
  | _ => true

theorem Alike.eq_of_plain {v v' : Word Object} (h : Alike ρ v v') (hv : v.isPlain = true) : v' = v := by
  cases h with
  | object h => cases hv
  | _ => rfl

theorem Fits.plain {t : JavaType} {value : List (Word Object)} (h : Fits t value)
    (ht : t.isReference = false) : ∀ v ∈ value, v.isPlain = true := by
  cases h with
  | null h => rw [ht] at h; cases h
  | object o h => rw [ht] at h; cases h
  | _ => simp [isPlain]

/-- Every value has a slot. -/
theorem Fits.slots_pos {t : JavaType} {value : List (Word Object)} (h : Fits t value) :
    0 < t.slots := by
  have reference : t.isReference = true → 0 < t.slots := by
    intro ht
    cases t with
    | object name => exact Nat.one_pos
    | array component => exact Nat.one_pos
    | _ => cases ht
  cases h with
  | null ht => exact reference ht
  | object o ht => exact reference ht
  | _ => exact Nat.succ_pos _

/-- What is like a primitive value is that value. -/
theorem alike_eq {value value' : List (Word Object)} (hv : ∀ v ∈ value, v.isPlain = true)
    (h : List.Forall₂ (Alike ρ) value value') : value' = value := by
  induction h with
  | nil => rfl
  | cons hx _ ih =>
    rw [hx.eq_of_plain (hv _ (List.mem_cons_self ..)), ih fun v h => hv v (List.mem_cons_of_mem _ h)]

/-- What is like a value of a type is a value of that type. -/
theorem Fits.alike {t : JavaType} {value value' : List (Word Object)} (h : Fits t value)
    (hv : List.Forall₂ (Alike ρ) value value') : Fits t value' := by
  cases ht : t.isReference with
  | false =>
    rw [alike_eq (h.plain ht) hv]
    exact h
  | true =>
    cases h with
    | null _ =>
      obtain ⟨-, -⟩ | ⟨hv, ⟨⟩⟩ := hv
      cases hv
      exact .null ht
    | object o _ =>
      obtain ⟨-, -⟩ | ⟨hv, ⟨⟩⟩ := hv
      cases hv
      exact .object _ ht
    | _ => cases ht

theorem rearranged_alike {op : Opcode} {st st' st1 : List (Word Object)}
    (hs : List.Forall₂ (Alike ρ) st st') (h : rearranged op st = some st1) :
    ∃ st1', rearranged op st' = some st1' ∧ List.Forall₂ (Alike ρ) st1 st1' := by
  unfold rearranged at h
  split at h
  · obtain _ | ⟨-, hs⟩ := hs
    cases h
    exact ⟨_, rfl, hs⟩
  · obtain _ | ⟨-, _ | ⟨-, hs⟩⟩ := hs
    cases h
    exact ⟨_, rfl, hs⟩
  · obtain _ | ⟨ha, hs⟩ := hs
    cases h
    exact ⟨_, rfl, .cons ha (.cons ha hs)⟩
  · obtain _ | ⟨ha, _ | ⟨hb, hs⟩⟩ := hs
    cases h
    exact ⟨_, rfl, .cons ha (.cons hb (.cons ha hs))⟩
  · obtain _ | ⟨ha, _ | ⟨hb, _ | ⟨hc, hs⟩⟩⟩ := hs
    cases h
    exact ⟨_, rfl, .cons ha (.cons hb (.cons hc (.cons ha hs)))⟩
  · obtain _ | ⟨ha, _ | ⟨hb, hs⟩⟩ := hs
    cases h
    exact ⟨_, rfl, .cons ha (.cons hb (.cons ha (.cons hb hs)))⟩
  · obtain _ | ⟨ha, _ | ⟨hb, _ | ⟨hc, hs⟩⟩⟩ := hs
    cases h
    exact ⟨_, rfl, .cons ha (.cons hb (.cons hc (.cons ha (.cons hb hs))))⟩
  · obtain _ | ⟨ha, _ | ⟨hb, _ | ⟨hc, _ | ⟨hd, hs⟩⟩⟩⟩ := hs
    cases h
    exact ⟨_, rfl, .cons ha (.cons hb (.cons hc (.cons hd (.cons ha (.cons hb hs)))))⟩
  · obtain _ | ⟨ha, _ | ⟨hb, hs⟩⟩ := hs
    cases h
    exact ⟨_, rfl, .cons hb (.cons ha hs)⟩
  · cases h

theorem returned_alike {op : Opcode} {st st' value : List (Word Object)}
    (hs : List.Forall₂ (Alike ρ) st st') (h : returned op st = some value) :
    ∃ value', returned op st' = some value' ∧ List.Forall₂ (Alike ρ) value value' := by
  unfold returned at h
  split at h
  · cases h
    exact ⟨[], by cases st' <;> rfl, .nil⟩
  · obtain _ | ⟨ha, hs⟩ := hs
    cases ha
    cases h
    exact ⟨_, rfl, .cons (.int _) .nil⟩
  · obtain _ | ⟨ha, hs⟩ := hs
    cases ha
    cases h
    exact ⟨_, rfl, .cons (.float _) .nil⟩
  · obtain _ | ⟨ha, _ | ⟨hb, hs⟩⟩ := hs
    cases ha
    cases hb
    cases h
    exact ⟨_, rfl, .cons .second (.cons (.long _) .nil)⟩
  · obtain _ | ⟨ha, _ | ⟨hb, hs⟩⟩ := hs
    cases ha
    cases hb
    cases h
    exact ⟨_, rfl, .cons .second (.cons (.double _) .nil)⟩
  · obtain _ | ⟨ha, hs⟩ := hs
    cases ha
    cases h
    exact ⟨_, rfl, .cons .null .nil⟩
  · obtain _ | ⟨ha, hs⟩ := hs
    cases ha with
    | object ho =>
    cases h
    exact ⟨_, rfl, .cons (.object ho) .nil⟩
  · cases h

theorem same_alike [DecidableEq Object] {v v' u u' : Word Object} (hv : Alike ρ v v')
    (hu : Alike ρ u u') (hp : ∀ {a a' b b'}, ρ a a' → ρ b b' → (a = b ↔ a' = b')) {e : Bool}
    (h : same v u = some e) : same v' u' = some e := by
  cases hv with
  | object ha =>
    cases hu with
    | object hb =>
      cases h
      simp only [same, Option.some.injEq]
      rw [Bool.eq_iff_iff, beq_iff_eq, beq_iff_eq]
      exact (hp ha hb).symm
    | null => exact h
    | _ => cases h
  | null =>
    cases hu with
    | object hb => exact h
    | null => exact h
    | _ => cases h
  | _ =>
    cases hu with
    | object hb => cases h
    | _ => cases h

theorem branch_alike [DecidableEq Object] {op : Opcode} {st st' st1 : List (Word Object)} {e : Bool}
    (hs : List.Forall₂ (Alike ρ) st st')
    (hp : ∀ {a a' b b'}, ρ a a' → ρ b b' → (a = b ↔ a' = b')) (h : branch op st = some (e, st1)) :
    ∃ st1', branch op st' = some (e, st1') ∧ List.Forall₂ (Alike ρ) st1 st1' := by
  unfold branch at h ⊢
  by_cases h1 : op = Op.goto
  · simp only [h1, if_true] at h ⊢
    cases h
    exact ⟨_, rfl, hs⟩
  simp only [h1, if_false] at h ⊢
  by_cases h2 : (op = Op.ifnull || op = Op.ifnonnull) = true
  · simp only [h2, if_true] at h ⊢
    cases hs with
    | nil => cases h
    | cons hv hs =>
      obtain ⟨e', he, h⟩ := Option.map_eq_some_iff.1 h
      cases h
      exact ⟨_, by simp only [same_alike hv .null hp he, Option.map_some], hs⟩
  simp only [h2, Bool.false_eq_true, if_false] at h ⊢
  by_cases h3 : Op.between Op.ifeq Op.ifle op = true
  · simp only [h3, if_true] at h ⊢
    cases hs with
    | nil => cases h
    | cons hv hs =>
      cases hv with
      | int n =>
        cases h
        exact ⟨_, rfl, hs⟩
      | _ => cases h
  simp only [h3, Bool.false_eq_true, if_false] at h ⊢
  by_cases h4 : Op.between Op.ifIcmpeq Op.ifIcmple op = true
  · simp only [h4, if_true] at h ⊢
    rcases hs with _ | ⟨hb, _ | ⟨ha, hs⟩⟩
    · cases h
    · cases hb <;> cases h
    · cases hb with
      | int n =>
        cases ha with
        | int m =>
          cases h
          exact ⟨_, rfl, hs⟩
        | _ => cases h
      | _ => cases h
  simp only [h4, Bool.false_eq_true, if_false] at h ⊢
  by_cases h5 : (op = Op.ifAcmpeq || op = Op.ifAcmpne) = true
  · simp only [h5, if_true] at h ⊢
    rcases hs with _ | ⟨hb, _ | ⟨ha, hs⟩⟩
    · cases h
    · cases h
    · obtain ⟨e', he, h⟩ := Option.map_eq_some_iff.1 h
      cases h
      exact ⟨_, by simp only [same_alike ha hb hp he, Option.map_some], hs⟩
  simp only [h5, Bool.false_eq_true, if_false] at h
  cases h

end Word

/-- Constants that are found in a pool are found in a larger one. -/
theorem Operation.ofInsn_within {p q : Pool} (hpq : p.Within q) {insn : Insn} {op : Operation}
    (h : Operation.ofInsn p insn = some op) : Operation.ofInsn q insn = some op := by
  have found : ∀ {α : Type} {x y : Except FormatError α} {f : α → Operation},
      (∀ a, x = .ok a → y = .ok a) → x.toOption.map f = some op → y.toOption.map f = some op := by
    intro α x y f hxy hx
    cases x with
    | error e => cases hx
    | ok a =>
      rw [hxy a rfl]
      exact hx
  cases insn with
  | type o index => exact found (fun _ => hpq.className) h
  | field o index | method o index => exact found (fun _ => hpq.memberRef) h
  | multiNewArray index dims => exact found (fun _ => hpq.className) h
  | dynamic index =>
    simp only [ofInsn] at h ⊢
    cases hc : p.get index with
    | error e =>
      rw [hc] at h
      cases h
    | ok c =>
      rw [hpq _ _ hc]
      rw [hc] at h
      cases c with
      | invokeDynamic bootstrap nat => exact found (fun _ => hpq.nameAndType) h
      | _ => exact h
  | ldc index =>
    simp only [ofInsn] at h ⊢
    cases hc : p.get index with
    | error e =>
      rw [hc] at h
      cases h
    | ok c =>
      rw [hpq _ _ hc]
      rw [hc] at h
      cases c with
      | stringRef t => exact found (fun _ => hpq.getUtf8) h
      | _ => exact h
  | _ => exact h

/-- The local variables that an instruction reads or changes lie below a bound. -/
def Insn.SlotsBelow (bound : Nat) : Insn → Prop
  | .var op slot => slot.toNat + (if Op.movesWide op then 2 else 1) ≤ bound
  | .iinc slot _ => slot.toNat < bound
  | _ => True

instance (bound : Nat) (insn : Insn) : Decidable (insn.SlotsBelow bound) :=
  match insn with
  | .var op slot => inferInstanceAs (Decidable (slot.toNat + (if Op.movesWide op then 2 else 1) ≤ bound))
  | .iinc slot _ => inferInstanceAs (Decidable (slot.toNat < bound))
  | .label _ | .line _ | .simple _ | .int _ _ | .type _ _ | .field _ _ | .method _ _ | .dynamic _
  | .ldc _ | .jump _ _ | .tableSwitch _ _ _ | .lookupSwitch _ _ | .multiNewArray _ _ => .isTrue trivial

theorem Insn.SlotsBelow.mono {m n : Nat} (hmn : m ≤ n) {insn : Insn} (h : insn.SlotsBelow m) :
    insn.SlotsBelow n := by
  cases insn with
  | var op slot => exact Nat.le_trans h hmn
  | iinc slot delta => exact Nat.lt_of_lt_of_le h hmn
  | _ => trivial

namespace Platform.Neutral

variable {P : Platform} {own : Operation → Prop} (N : P.Neutral own)

/-- Two stores of one method, the second beside further objects. The local variables up to a bound are
compared. -/
structure Alike (bound : Nat) (ρ : P.Object → P.Object → Prop) (s s' : P.Store) : Prop where
  world : N.Beside s.world s'.world ρ []
  stack : List.Forall₂ (Word.Alike ρ) s.stack s'.stack
  locals : ∀ k < bound, Word.Alike ρ (s.locals k) (s'.locals k)

/-- The second action is what the first one is, beside further objects. -/
inductive Follows (bound : Nat) (ρ : P.Object → P.Object → Prop) : P.Action → P.Action → Prop
  | next {s s' ρ1} : (∀ o o', ρ o o' → ρ1 o o') → N.Alike bound ρ1 s s' →
    Follows bound ρ (.next s) (.next s')
  | jump {l s s' ρ1} : (∀ o o', ρ o o' → ρ1 o o') → N.Alike bound ρ1 s s' →
    Follows bound ρ (.jump l s) (.jump l s')
  | throw {w w' o o' ρ1} : (∀ o o', ρ o o' → ρ1 o o') → N.Beside w w' ρ1 [] → ρ1 o o' →
    Follows bound ρ (.throw w o) (.throw w' o')
  | leave {value value' w w' ρ1} : (∀ o o', ρ o o' → ρ1 o o') → N.Beside w w' ρ1 [] →
    List.Forall₂ (Word.Alike ρ1) value value' → Follows bound ρ (.leave value w) (.leave value' w')
  | stuck {a} : Follows bound ρ .stuck a

section Follows

variable {N} {bound : Nat} {ρ : P.Object → P.Object → Prop} {s s' : P.Store} {p q : Pool}

theorem Alike.push (h : N.Alike bound ρ s s') {v v' : Word P.Object} (hv : Word.Alike ρ v v') :
    N.Alike bound ρ (s.push v) (s'.push v') :=
  ⟨h.world, .cons hv h.stack, h.locals⟩

theorem Alike.withStack (h : N.Alike bound ρ s s') {st st' : List (Word P.Object)}
    (hs : List.Forall₂ (Word.Alike ρ) st st') : N.Alike bound ρ (s.withStack st) (s'.withStack st') :=
  ⟨h.world, hs, h.locals⟩

theorem Alike.set (h : N.Alike bound ρ s s') (slot : Nat) {v v' : Word P.Object}
    (hv : Word.Alike ρ v v') : N.Alike bound ρ (s.set slot v) (s'.set slot v') := by
  refine ⟨h.world, h.stack, fun k hk => ?_⟩
  unfold Store.set
  dsimp only
  split
  · exact hv
  · exact h.locals k hk

theorem Alike.load (h : N.Alike bound ρ s s') {op : Opcode} {slot : Nat}
    (hslot : slot + (if Op.movesWide op then 2 else 1) ≤ bound) :
    N.Alike bound ρ (s.load op slot) (s'.load op slot) := by
  unfold Store.load
  split
  · rename_i hw
    rw [if_pos hw] at hslot
    exact (h.push (h.locals _ (by omega))).push (h.locals _ (by omega))
  · rename_i hw
    rw [if_neg hw] at hslot
    exact h.push (h.locals _ (by omega))

theorem Alike.store (h : N.Alike bound ρ s s') {op : Opcode} {slot : Nat} {t : P.Store}
    (ht : s.store op slot = some t) : ∃ t', s'.store op slot = some t' ∧ N.Alike bound ρ t t' := by
  obtain ⟨w, st, locals⟩ := s
  obtain ⟨w', st', locals'⟩ := s'
  have hs : List.Forall₂ (Word.Alike ρ) st st' := h.stack
  unfold Store.store at ht ⊢
  by_cases hw : Op.movesWide op = true
  · simp only [hw, if_true] at ht ⊢
    rcases hs with _ | ⟨hb, _ | ⟨ha, hs⟩⟩
    · cases ht
    · cases ht
    · cases ht
      exact ⟨_, rfl, ((h.withStack hs).set slot ha).set (slot + 1) hb⟩
  · simp only [hw, Bool.false_eq_true, if_false] at ht ⊢
    rcases hs with _ | ⟨ha, hs⟩
    · cases ht
    · cases ht
      exact ⟨_, rfl, (h.withStack hs).set slot ha⟩

theorem carryOut_follows (h : N.Alike bound ρ s s') (hpq : p.Within q) {insn : Insn}
    (hown : ∀ op, Operation.ofInsn p insn = some op → own op) :
    N.Follows bound ρ (P.carryOut p insn s) (P.carryOut q insn s') := by
  unfold carryOut
  cases hop : Operation.ofInsn p insn with
  | none => exact .stuck
  | some op =>
    rw [Operation.ofInsn_within hpq hop]
    simp only
    cases hx : P.perform op s.world s.stack with
    | done w st =>
      obtain ⟨w', st', ρ1, hx', hρ, hw, hst⟩ := N.done (hown op hop) h.world h.stack hx
      rw [hx']
      exact .next hρ ⟨hw, hst, fun k hk => (h.locals k hk).mono hρ⟩
    | thrown w o =>
      obtain ⟨w', o', ρ1, hx', hρ, hw, ho⟩ := N.thrown (hown op hop) h.world h.stack hx
      rw [hx']
      exact .throw hρ hw ho
    | stuck => exact .stuck

/-- What is thrown where an instruction has been carried out to no other end. -/
def refusal (P : Platform) : Outcome P.World P.Object → P.Action
  | .thrown world o => .throw world o
  | _ => .stuck

theorem simple_follows (h : N.Alike bound ρ s s') (hpq : p.Within q) {op : Opcode}
    (hown : own (.simple op)) : N.Follows bound ρ (P.simple p op s) (P.simple q op s') := by
  have carried : N.Follows bound ρ (P.carryOut p (.simple op) s) (P.carryOut q (.simple op) s') := by
    refine carryOut_follows h hpq fun o ho => ?_
    cases ho
    exact hown
  unfold simple
  by_cases h1 : Op.isReturn op = true
  · simp only [h1, if_true]
    cases hr : Word.returned op s.stack with
    | none => exact .stuck
    | some value =>
      obtain ⟨value', hr', hv⟩ := Word.returned_alike h.stack hr
      rw [hr']
      exact .leave (fun _ _ h => h) h.world hv
  simp only [h1, Bool.false_eq_true, if_false]
  by_cases h2 : op = Op.athrow
  · simp only [h2, if_true]
    -- without an object on the stack, the platform says what is thrown
    have refused : ∀ {st st' : List (Word P.Object)}, List.Forall₂ (Word.Alike ρ) st st' →
        N.Follows bound ρ (refusal P (P.perform (.simple op) s.world st))
          (refusal P (P.perform (.simple op) s'.world st')) := by
      intro st st' hs
      cases hx : P.perform (.simple op) s.world st with
      | thrown w o =>
        obtain ⟨w', o', ρ1, hx', hρ, hw, ho⟩ := N.thrown hown h.world hs hx
        rw [hx']
        exact .throw hρ hw ho
      | _ => exact .stuck
    rw [h2] at refused
    have hs := h.stack
    generalize s.stack = st at hs
    generalize s'.stack = st' at hs
    cases hs with
    | nil => exact refused .nil
    | cons hv hs =>
      cases hv with
      | object ho =>
        simp only [← N.isA h.world ho]
        split
        · exact .throw (fun _ _ h => h) h.world ho
        · exact .stuck
      | int n => exact refused (.cons (.int n) hs)
      | float b => exact refused (.cons (.float b) hs)
      | long n => exact refused (.cons (.long n) hs)
      | double b => exact refused (.cons (.double b) hs)
      | second => exact refused (.cons .second hs)
      | null => exact refused (.cons .null hs)
      | address i => exact refused (.cons (.address i) hs)
  simp only [h2, if_false]
  by_cases h3 : Op.between Op.pop Op.swap op = true
  · simp only [h3, if_true]
    cases hr : Word.rearranged op s.stack with
    | none => exact .stuck
    | some st =>
      obtain ⟨st', hr', hst⟩ := Word.rearranged_alike h.stack hr
      rw [hr']
      exact .next (fun _ _ h => h) (h.withStack hst)
  simp only [h3, Bool.false_eq_true, if_false]
  by_cases h4 : Op.between Op.iconstM1 Op.iconst5 op = true
  · simp only [h4, if_true]
    exact .next (fun _ _ h => h) (h.push (.int _))
  simp only [h4, Bool.false_eq_true, if_false]
  by_cases h5 : op = Op.aconstNull
  · simp only [h5, if_true]
    exact .next (fun _ _ h => h) (h.push .null)
  simp only [h5, if_false]
  exact carried

/-- An instruction does beside further objects what it does without them. -/
theorem act_follows (h : N.Alike bound ρ s s') (hpq : p.Within q) {insn : Insn}
    (hown : ∀ op, Operation.ofInsn p insn = some op → own op) (hslots : insn.SlotsBelow bound) :
    N.Follows bound ρ (P.act p insn s) (P.act q insn s') := by
  cases insn with
  | label l => exact .next (fun _ _ h => h) h
  | line n => exact .next (fun _ _ h => h) h
  | simple op => exact simple_follows h hpq (hown _ rfl)
  | int op n =>
    unfold act
    simp only
    split
    · exact carryOut_follows h hpq hown
    · exact .next (fun _ _ h => h) (h.push (.int n))
  | var op slot =>
    unfold act
    simp only
    split
    · exact .next (fun _ _ h => h) (h.load hslots)
    · cases ht : s.store op slot.toNat with
      | none => exact .stuck
      | some t =>
        obtain ⟨t', ht', hs⟩ := h.store ht
        rw [ht']
        exact .next (fun _ _ h => h) hs
  | iinc slot delta =>
    unfold act
    simp only
    have hv := h.locals _ hslots
    generalize s.locals slot.toNat = v at hv
    generalize s'.locals slot.toNat = v' at hv
    cases hv with
    | int n => exact .next (fun _ _ h => h) (h.set _ (.int _))
    | _ => exact .stuck
  | ldc index =>
    have carried := carryOut_follows h hpq hown
    unfold act
    simp only
    cases hc : p.get index with
    | error e =>
      have : Operation.ofInsn p (.ldc index) = none := by simp only [Operation.ofInsn, hc]
      simp only [carryOut, this]
      exact .stuck
    | ok c =>
      rw [hpq _ _ hc]
      cases c with
      | integer n => exact .next (fun _ _ h => h) (h.push (.int n))
      | _ => exact carried
  | jump op l =>
    unfold act
    simp only
    cases hb : Word.branch op s.stack with
    | none => exact .stuck
    | some r =>
      obtain ⟨e, st⟩ := r
      obtain ⟨st', hb', hs⟩ := Word.branch_alike h.stack (N.paired h.world) hb
      rw [hb']
      cases e with
      | true => exact .jump (fun _ _ h => h) (h.withStack hs)
      | false => exact .next (fun _ _ h => h) (h.withStack hs)
  | tableSwitch fallback low targets =>
    unfold act
    simp only
    have hs := h.stack
    generalize s.stack = st at hs
    generalize s'.stack = st' at hs
    cases hs with
    | nil => exact .stuck
    | cons hv hs =>
      cases hv with
      | int n => exact .jump (fun _ _ h => h) (h.withStack hs)
      | _ => exact .stuck
  | lookupSwitch fallback pairs =>
    unfold act
    simp only
    have hs := h.stack
    generalize s.stack = st at hs
    generalize s'.stack = st' at hs
    cases hs with
    | nil => exact .stuck
    | cons hv hs =>
      cases hv with
      | int n => exact .jump (fun _ _ h => h) (h.withStack hs)
      | _ => exact .stuck
  | _ => exact carryOut_follows h hpq hown

end Follows

end Platform.Neutral

end Interpose
