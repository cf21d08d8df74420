import Interpose.Proofs.Execution.Verdict
import Interpose.Proofs.Inference.Result
import Interpose.Proofs.Weave.Places
/-!
# The check of a verdict

What is emitted behind a dispatch, for every type that a method can return and wherever it stands
(`verdictCheck_decides`). That it runs as it should is known from its templates (`Stands.resolves`). For
the inference the templates are typed: each says what it leaves of one stack (`Template.Types`), and a
label what the stack is there, so a run of templates gives every place one stack (`Template.Turns`), on
which the inference accepts it in any method (`Method.accepts_of_typed`).
-/

namespace Interpose

/-- The slots of a value of a type, as they lie on a stack. There are none of `void`. -/
def JavaType.stackTypes (t : JavaType) : List VType :=
  if t = void then [] else (VType.ofJava t).slots.reverse

/-! ## Types of stacks -/

namespace Template

/-- Executed on one stack, the template leaves another and all local variables as they are. A label is
placed where a stack of its own is expected, and a jump to it leaves that stack. -/
structure Types (shapeAt : Label → Option (List VType)) (x : Template) (st st' : List VType) :
    Prop where
  executes : ∀ q i, x.Settles q i → ∀ owner n locals, ∃ out peak,
    execute q owner n i ⟨⟨locals, st⟩, 0⟩ = .ok ⟨⟨locals, out⟩, peak⟩ ∧
    (i.isTerminal = false → out = st') ∧ ∀ l ∈ i.targets, shapeAt l = some out
  placed : ∀ l, x = .place l → shapeAt l = some st

namespace Types

variable {shapeAt : Label → Option (List VType)} {st st' : List VType} {v : VType}

theorem op {o : Opcode} (h : ∀ n locals, ∃ peak,
    Machine.simple n o ⟨⟨locals, st⟩, 0⟩ = .ok ⟨⟨locals, st'⟩, peak⟩) :
    Types shapeAt (.op o) st st' := by
  refine ⟨fun q i hi owner n locals => ?_, nofun⟩
  cases hi
  obtain ⟨peak, hpeak⟩ := h n locals
  exact ⟨_, peak, hpeak, fun _ => rfl, nofun⟩

/-- Behind an opcode that leaves, any stack will do. -/
theorem leaves {o : Opcode} (ho : Op.isTerminal o = true) (h : ∀ n locals, ∃ out peak,
    Machine.simple n o ⟨⟨locals, st⟩, 0⟩ = .ok ⟨⟨locals, out⟩, peak⟩) :
    Types shapeAt (.op o) st st' := by
  refine ⟨fun q i hi owner n locals => ?_, nofun⟩
  cases hi
  obtain ⟨out, peak, hpeak⟩ := h n locals
  exact ⟨out, peak, hpeak, fun hon => absurd (ho.symm.trans hon) (by decide), nofun⟩

theorem place {l : Label} (h : shapeAt l = some st) : Types shapeAt (.place l) st st := by
  refine ⟨fun q i hi owner n locals => ?_, fun l' hl => ?_⟩
  · cases hi
    exact ⟨st, 0, rfl, fun _ => rfl, nofun⟩
  · cases hl
    exact h

theorem pushInt (k : Int32) : Types shapeAt (.pushInt k) st (.int :: st) := by
  refine ⟨fun q i hi owner n locals => ?_, fun l hl => Template.noConfusion hl⟩
  cases hi with
  | small h1 h2 =>
    generalize k.toInt = m at h1 h2
    rcases (by omega : m = -1 ∨ m = 0 ∨ m = 1 ∨ m = 2 ∨ m = 3 ∨ m = 4 ∨ m = 5) with
      rfl | rfl | rfl | rfl | rfl | rfl | rfl
    all_goals exact ⟨_, _, rfl, fun _ => rfl, List.forall_mem_nil _⟩
  | byte h1 h2 => exact ⟨_, _, rfl, fun _ => rfl, List.forall_mem_nil _⟩
  | short h1 h2 => exact ⟨_, _, rfl, fun _ => rfl, List.forall_mem_nil _⟩
  | @integer _ index h =>
    have hexecute : ∀ m : Machine, execute q owner n (.ldc index) m = .ok (m.push .int) := by
      intro m
      simp only [execute, constantType, h]
      rfl
    exact ⟨_, _, hexecute _, fun _ => rfl, List.forall_mem_nil _⟩

theorem pushJava (m : Machine) (t : JavaType) : ∃ peak,
    m.pushJava t = ⟨⟨m.locals, t.stackTypes ++ m.stack⟩, peak⟩ := by
  unfold Machine.pushJava JavaType.stackTypes
  split <;> exact ⟨_, rfl⟩

theorem popReference (n : Nat) (locals : List VType) (hv : v.isReference = true) :
    Machine.popReference n ⟨⟨locals, v :: st⟩, 0⟩ = .ok (v, ⟨⟨locals, st⟩, 0⟩) := by
  refine bind_eq_ok.2 ⟨(v, ⟨⟨locals, st⟩, 0⟩), rfl, ?_⟩
  simp only [hv, if_true]
  rfl

theorem getfield {f : MemberRef} {t : JavaType} (hf : JavaType.ofDescriptor f.descriptor = .ok t)
    (hv : v.isReference = true) :
    Types shapeAt (.field Op.getfield f) (v :: st) (t.stackTypes ++ st) := by
  refine ⟨fun q i hi owner n locals => ?_, nofun⟩
  cases hi with
  | field hc =>
    obtain ⟨peak, hpeak⟩ := pushJava ⟨⟨locals, st⟩, 0⟩ t
    refine ⟨t.stackTypes ++ st, peak, ?_, fun _ => rfl, nofun⟩
    refine bind_eq_ok.2 ⟨f, by rw [hc]; rfl, bind_eq_ok.2 ⟨t, by rw [hf]; rfl, ?_⟩⟩
    exact bind_eq_ok.2 ⟨_, popReference n locals hv, congrArg Except.ok hpeak⟩

theorem checkcast (name : String) (hv : v.isReference = true) :
    Types shapeAt (.type Op.checkcast name) (v :: st) (.object name :: st) := by
  refine ⟨fun q i hi owner n locals => ?_, nofun⟩
  cases hi with
  | type hc =>
    obtain ⟨peak, hpeak⟩ : ∃ peak, (⟨⟨locals, st⟩, 0⟩ : Machine).push (.object name) =
      ⟨⟨locals, .object name :: st⟩, peak⟩ := ⟨_, rfl⟩
    refine ⟨.object name :: st, peak, ?_, fun _ => rfl, nofun⟩
    refine bind_eq_ok.2 ⟨name, by rw [hc]; rfl, ?_⟩
    exact bind_eq_ok.2 ⟨_, popReference n locals hv, congrArg Except.ok hpeak⟩

/-- A method without parameters, on an object. -/
theorem invokevirtual {m : MemberRef} {t : JavaType}
    (hm : MethodDescriptor.ofDescriptor m.descriptor = .ok ⟨[], t⟩) (hv : v.isReference = true) :
    Types shapeAt (.method Op.invokevirtual m) (v :: st) (t.stackTypes ++ st) := by
  refine ⟨fun q i hi owner n locals => ?_, nofun⟩
  cases hi with
  | method hc =>
    obtain ⟨peak, hpeak⟩ := pushJava ⟨⟨locals, st⟩, 0⟩ t
    refine ⟨t.stackTypes ++ st, peak, ?_, fun _ => rfl, nofun⟩
    refine bind_eq_ok.2 ⟨m, by rw [hc]; rfl, bind_eq_ok.2 ⟨⟨[], t⟩, by rw [hm]; rfl, ?_⟩⟩
    refine bind_eq_ok.2 ⟨⟨⟨locals, v :: st⟩, 0⟩, rfl, ?_⟩
    exact bind_eq_ok.2 ⟨_, popReference n locals hv, congrArg Except.ok hpeak⟩

theorem ifIcmpne {l : Label} (a c : VType) (h : shapeAt l = some st) :
    Types shapeAt (.jump Op.ifIcmpne l) (a :: c :: st) st := by
  refine ⟨fun q i hi owner n locals => ?_, nofun⟩
  cases hi
  refine ⟨st, 0, rfl, fun _ => rfl, fun l' hl => ?_⟩
  rw [List.mem_singleton.1 hl]
  exact h

end Types

/-- Stacks in front of templates, and one behind the last. -/
inductive Typed (shapeAt : Label → Option (List VType)) :
    List Template → List (List VType) → Prop
  | nil (st) : Typed shapeAt [] [st]
  | cons {x xs st st' shapes} : Types shapeAt x st st' → Typed shapeAt xs (st' :: shapes) →
    Typed shapeAt (x :: xs) (st :: st' :: shapes)

/-- Templates that take one stack to another. -/
def Turns (shapeAt : Label → Option (List VType)) (ts : List Template) (st st' : List VType) :
    Prop :=
  ∃ shapes, Typed shapeAt ts shapes ∧ shapes.head? = some st ∧ shapes.getLast? = some st'

variable {shapeAt : Label → Option (List VType)} {st st' st'' : List VType}
  {x : Template} {ts ts' : List Template} {shapes : List (List VType)}

theorem Typed.length (h : Typed shapeAt ts shapes) : shapes.length = ts.length + 1 := by
  induction h with
  | nil st => rfl
  | cons _ _ ih => rw [List.length_cons, ih, List.length_cons]

theorem Typed.types (h : Typed shapeAt ts shapes) {j : Nat} (hx : ts[j]? = some x)
    (hst : shapes[j]? = some st) : ∃ st', shapes[j + 1]? = some st' ∧ Types shapeAt x st st' := by
  induction h generalizing j with
  | nil _ => cases hx
  | cons h _ ih =>
    cases j with
    | zero =>
      cases hx
      cases hst
      exact ⟨_, rfl, h⟩
    | succ j => exact ih hx hst

namespace Turns

theorem nil : Turns shapeAt [] st st := ⟨[st], .nil st, rfl, rfl⟩

theorem cons (hx : Types shapeAt x st st') (h : Turns shapeAt ts st' st'') :
    Turns shapeAt (x :: ts) st st'' := by
  obtain ⟨shapes, htyped, hhead, hlast⟩ := h
  cases shapes with
  | nil => cases hhead
  | cons st1 shapes =>
    cases hhead
    exact ⟨st :: st' :: shapes, .cons hx htyped, rfl, hlast⟩

theorem append (h : Turns shapeAt ts st st') (h' : Turns shapeAt ts' st' st'') :
    Turns shapeAt (ts ++ ts') st st'' := by
  obtain ⟨shapes, htyped, hhead, hlast⟩ := h
  induction htyped generalizing st with
  | nil _ =>
    cases hhead
    cases hlast
    exact h'
  | cons hx _ ih =>
    cases hhead
    exact .cons hx (ih rfl hlast)

end Turns

/-- Unboxing takes the value of a verdict to one of the type. -/
theorem unboxing_turns (t : JavaType) : Turns shapeAt t.unboxing (.object objectClass :: st)
    (t.stackTypes ++ st) := by
  have ask : ∀ {t : JavaType} {owner name descriptor},
      MethodDescriptor.ofDescriptor descriptor = .ok ⟨[], t⟩ →
      Turns shapeAt (JavaType.unwrapping owner name descriptor) (.object objectClass :: st)
        (t.stackTypes ++ st) :=
    fun h => .cons (.checkcast _ rfl) (.cons (.invokevirtual h rfl) .nil)
  have cast : ∀ c, Turns shapeAt (if c = objectClass then [] else [.type Op.checkcast c])
      (.object objectClass :: st) (.object c :: st) := by
    intro c
    split
    · rename_i hc
      rw [hc]
      exact .nil
    · exact .cons (.checkcast c rfl) .nil
  cases t with
  | void => exact .cons (.op fun _ _ => ⟨_, rfl⟩) .nil
  | object name => exact cast name
  | array component => exact cast _
  | boolean => exact ask (by decide +kernel)
  | byte => exact ask (by decide +kernel)
  | char => exact ask (by decide +kernel)
  | short => exact ask (by decide +kernel)
  | int => exact ask (by decide +kernel)
  | long => exact ask (by decide +kernel)
  | float => exact ask (by decide +kernel)
  | double => exact ask (by decide +kernel)

/-- A return takes its value off the stack. -/
theorem Types.returnOpcode (t : JavaType) :
    Types shapeAt (.op t.returnOpcode) (t.stackTypes ++ st) st' := by
  refine .leaves (by cases t <;> rfl) fun n locals => ?_
  cases t <;> exact ⟨st, _, rfl⟩

/-- The check of a verdict takes it off the stack. A label stands where the number of the state is still
above the verdict, the other where it is not. -/
theorem verdictCheck_turns (t : JavaType) {l l' : Label} {below : List VType}
    (hl : shapeAt l = some (.int :: .object Spy.verdictClass :: below))
    (hl' : shapeAt l' = some (.object Spy.verdictClass :: below)) :
    Turns shapeAt (Block.verdictCheck t l l') (.object Spy.verdictClass :: below) below := by
  have hstate : JavaType.ofDescriptor Spy.stateField.descriptor = .ok .int := by decide +kernel
  have hvalue : JavaType.ofDescriptor Spy.valueField.descriptor = .ok (.object objectClass) := by
    decide +kernel
  have dup : ∀ {v : VType} {st}, Types shapeAt (.op Op.dup) (v :: st) (v :: v :: st) :=
    .op fun _ _ => ⟨_, rfl⟩
  have pop : ∀ {v : VType} {st}, Types shapeAt (.op Op.pop) (v :: st) st :=
    .op fun _ _ => ⟨_, rfl⟩
  have entry : Turns shapeAt (Block.verdictEntry l) (.object Spy.verdictClass :: below)
      (.object objectClass :: below) :=
    .cons dup (.cons (.getfield hstate rfl) (.cons dup (.cons (.pushInt _)
      (.cons (.ifIcmpne _ _ hl) (.cons pop (.cons (.getfield hvalue rfl) .nil))))))
  have exits : Turns shapeAt (Block.verdictExits t l l') (t.stackTypes ++ below) below :=
    .cons (.returnOpcode t) (.cons (.place hl) (.cons (.pushInt _)
      (.cons (.ifIcmpne _ _ hl') (.cons (.getfield hvalue rfl) (.cons (.checkcast _ rfl)
        (.cons (.leaves rfl fun _ _ => ⟨_, _, rfl⟩) (.cons (.place hl') (.cons pop .nil))))))))
  rw [Block.verdictCheck_eq]
  exact entry.append ((unboxing_turns t).append exits)

end Template

/-! ## Code in a body -/

/-- Code stands in a body between other code, and none of its labels is placed again behind it. -/
structure Spliced (b : Body) (before code after : List Insn) : Prop where
  insns : b.insns = before ++ (code ++ after)
  once : ∀ l, .label l ∈ code → .label l ∉ after

theorem Spliced.getElem? {b : Body} {before code after : List Insn} (h : Spliced b before code after)
    {j : Nat} (hj : j < code.length) : b.insns[before.length + j]? = code[j]? := by
  rw [h.insns, List.getElem?_append_right (Nat.le_add_right _ _), Nat.add_sub_cancel_left,
    List.getElem?_append_left hj]

/-- Templates stand where the instructions that settle them are spliced in. -/
theorem Template.Stands.of_spliced {q : Pool} {b : Body} {before code after : List Insn}
    {ts : List Template} (h : Spliced b before code after) (hs : SettleAll q ts code)
    (hn : (freshLabels 0 ts).Nodup) : Stands q b before.length ts := by
  have settled {j : Nat} {x : Template} (hx : ts[j]? = some x) :
      ∃ i, b.insns[before.length + j]? = some i ∧ x.Settles q i := by
    obtain ⟨i, hi, hsettles⟩ := forall₂_getElem? hs hx
    exact ⟨i, by rw [h.getElem? (List.getElem?_eq_some_iff.1 hi).1, hi], hsettles⟩
  refine ⟨fun j x => settled, fun j l hj => ⟨?_, fun i hlt hi => ?_⟩⟩
  · obtain ⟨i, hi, hsettles⟩ := settled hj
    cases hsettles
    exact hi
  · obtain ⟨i, rfl⟩ := Nat.exists_eq_add_of_le (show before.length ≤ i by omega)
    have hlabel : Insn.label l ∈ code := by
      obtain ⟨i, hi, hsettles⟩ := forall₂_getElem? hs hj
      cases hsettles
      exact List.mem_of_getElem? hi
    by_cases hlen : i < code.length
    · rw [h.getElem? hlen] at hi
      obtain ⟨x, hx, hsettles⟩ := forall₂_getElem? hs.flip hi
      cases hsettles
      have := index_unique hn (Nat.zero_le l) hj hx
      omega
    · rw [h.insns, List.getElem?_append_right (Nat.le_add_right _ _), Nat.add_sub_cancel_left,
        List.getElem?_append_right (by omega)] at hi
      exact h.once l hlabel (List.mem_of_getElem? hi)

namespace Analysis.Method

/-- The inference accepts code behind a number of instructions, with the given stacks in front of the
instructions and behind the last. -/
structure Accepts (m : Method) (k : Nat) (code : List Insn) (shapes : List (List VType)) : Prop where
  /-- Every instruction is executed on its stack, whatever the local variables hold. But for handlers, it
  delivers the stack of the place it goes to, and the local variables as they are. -/
  delivers : ∀ j insn st, code[j]? = some insn → shapes[j]? = some st → ∀ locals,
    ∃ ds after, m.deliveries (k + j) insn ⟨locals, st⟩ = .ok (ds, after) ∧
      ∀ d ∈ ds, d ∈ m.toHandlers (k + j) insn ⟨locals, st⟩ ∨
        ∃ j' st', shapes[j']? = some st' ∧ d = (k + j', ⟨locals, st'⟩)
  /-- Where paths meet, their frames merge to one with the stack of the place. -/
  merges : ∀ j st, shapes[j]? = some st → m.hints[k + j]? = none → ∀ locals locals',
    m.arrive (k + j) (some ⟨locals, st⟩) ⟨locals', st⟩ =
      .ok ⟨Frame.mergeLocals m.hierarchy locals locals', st⟩

theorem arrive_self {m : Method} {i : Nat} (hi : m.hints[i]? = none) (st locals locals' : List VType) :
    m.arrive i (some ⟨locals, st⟩) ⟨locals', st⟩ =
      .ok ⟨Frame.mergeLocals m.hierarchy locals locals', st⟩ := by
  have hself := (Frame.accepts_iff i).1 (Frame.Accepts.refl m.hierarchy ⟨locals, st⟩)
  have hmerge : Frame.merge m.hierarchy i ⟨locals, st⟩ ⟨locals', st⟩ =
      .ok ⟨Frame.mergeLocals m.hierarchy locals locals', st⟩ :=
    Frame.merge_eq_ok.2 ⟨(Frame.merge_eq_ok.1 hself).1, rfl⟩
  rw [arrive_eq, hi]
  simp only [Option.elim_some, Option.elim_none, hmerge]
  rfl

open Template in
/-- Typed templates are accepted where they stand. -/
theorem accepts_of_typed {m : Method} {b : Body} {context : MethodContext} {q : Pool} {h : Hierarchy}
    (hm : m.Of b context q h) {k : Nat} {ts : List Template} {code : List Insn}
    (hstands : Stands q b k ts) (hs : SettleAll q ts code)
    {shapeAt : Label → Option (List VType)} {shapes : List (List VType)}
    (htyped : Typed shapeAt ts shapes)
    (hplaced : ∀ l st, shapeAt l = some st → .place l ∈ ts)
    (hlen : k + ts.length < b.insns.length) : m.Accepts k code shapes := by
  refine ⟨fun j insn st hinsn hst locals => ?_, fun j st _ hi locals locals' => arrive_self hi ..⟩
  obtain ⟨x, hx, hsettles⟩ := forall₂_getElem? hs.flip hinsn
  have hjlt := (List.getElem?_eq_some_iff.1 hx).1
  obtain ⟨st', hst', htypes⟩ := htyped.types hx hst
  obtain ⟨out, peak, hexecute, hon, htargets⟩ := htypes.executes q insn hsettles m.context.owner (k + j) locals
  -- a jump goes to the place of its label in the code, where the stack is the one it leaves
  have hjump : ∀ l ∈ insn.targets, ∃ i, m.positions[l]? = some (k + i) ∧ shapes[i]? = some out := by
    intro l hl
    obtain ⟨i, hi⟩ := List.mem_iff_getElem?.1 (hplaced l out (htargets l hl))
    have hilt := (List.getElem?_eq_some_iff.1 hi).1
    obtain ⟨sti, hsti⟩ : ∃ sti, shapes[i]? = some sti :=
      ⟨_, List.getElem?_eq_getElem (by rw [htyped.length]; omega)⟩
    obtain ⟨_, _, hthere⟩ := htyped.types hi hsti
    have hsame := hthere.placed l rfl
    rw [htargets l hl] at hsame
    cases hsame
    exact ⟨i, (hm.positions l _).2 (hstands.label i l hi), hsti⟩
  choose! place hplace using hjump
  let next : List (Nat × Frame) := if insn.isTerminal then [] else [(k + j + 1, ⟨locals, out⟩)]
  have hnext : (insn.isTerminal = true ∧ next = []) ∨ (insn.isTerminal = false ∧
      k + j + 1 < m.code.size ∧ next = [(k + j + 1, ⟨locals, out⟩)]) := by
    cases hterminal : insn.isTerminal with
    | true => exact .inl ⟨rfl, by simp only [next, hterminal, if_true]⟩
    | false =>
      refine .inr ⟨rfl, ?_, by simp only [next, hterminal, Bool.false_eq_true, if_false]⟩
      rw [hm.code, List.size_toArray]
      omega
  refine ⟨_, ⟨⟨locals, out⟩, peak⟩, deliveries_eq_ok.2 ⟨by rw [hm.pool]; exact hexecute,
    insn.targets.map fun l => (k + place l, ⟨locals, out⟩), next, ?_, hnext, rfl⟩, fun d hd => ?_⟩
  · exact List.forall₂_map_right_iff.2 (List.forall₂_same.2 fun l hl => ⟨(hplace l hl).1, rfl⟩)
  · rcases List.mem_append.1 hd with hd | hd
    · rcases List.mem_append.1 hd with hd | hd
      · exact .inl hd
      · obtain ⟨l, hl, rfl⟩ := List.mem_map.1 hd
        exact .inr ⟨place l, out, (hplace l hl).2, rfl⟩
    · rcases hnext with ⟨-, hnone⟩ | ⟨hgoes, -, hone⟩
      · rw [hnone] at hd
        cases hd
      · rw [hone, List.mem_singleton] at hd
        exact .inr ⟨j + 1, out, by rw [hon hgoes]; exact hst', hd⟩

end Analysis.Method

/-! ## The check -/

/-- Emitting without new local variables and protected ranges adds instructions and labels only. -/
theorem Emission.Gains.eq_of_insns {q : Pool} {e e' : Emission} {ts : List Template} {labels : Nat}
    (h : e.Gains q e' ts labels 0 []) {is : List Insn} (his : e'.insns.toList = e.insns.toList ++ is) :
    e' = { e with insns := e.insns ++ is.toArray, nextLabel := e.nextLabel + labels } := by
  obtain ⟨-, hlabel, hroom, rs, hrs, hnone⟩ := h
  cases hnone
  have hinsns : e'.insns = e.insns ++ is.toArray := by
    rw [← Array.toList_inj, his, Array.toList_append]
  obtain ⟨hlocal, hmax⟩ := Prod.mk.inj hroom
  obtain ⟨insns, nextLabel, nextLocal, maxLocals, callRanges⟩ := e'
  cases hinsns
  cases hlabel
  cases hlocal
  cases hmax
  rw [List.append_nil] at hrs
  cases hrs
  rfl

/-- What there is where verdicts carry numbers. -/
inductive VerdictObject where
  | verdict (state : Int32) (n : Int64)
  | number (n : Int64)
deriving DecidableEq

/-- A platform with verdicts and numbers, on which every cast succeeds. -/
def Platform.verdicts : Platform where
  World := Unit
  Object := VerdictObject
  decEq := inferInstance
  perform op w st :=
    match op, st with
    | .field _ f, .object (.verdict state n) :: rest =>
      if f = Spy.stateField then .done w (.int state :: rest)
      else .done w (.object (.number n) :: rest)
    | .type _ _, .object (.number n) :: rest => .done w (.object (.number n) :: rest)
    | .method _ _, .object (.number n) :: rest => .done w (.second :: .long n :: rest)
    | _, _ => .stuck
  isA _ _ _ := true
  thrown_isA _ := rfl

theorem Platform.verdicts_isVerdict (state : Int32) (n : Int64) :
    verdicts.IsVerdict () (.verdict state n) state (.object (.number n)) :=
  ⟨fun _ => by simp [verdicts], fun _ => by simp [verdicts, Spy.valueField, Spy.stateField]⟩

open Analysis Template in
/-- The check of a verdict is emitted with two labels of its own. Wherever it stands, whatever is on the
stack below, and on any platform, it returns the value of a verdict to return, coerced to the type; it
throws the value of a verdict to throw, cast to what can be thrown; and it goes on behind its end with the
stack below and the local variables as they were for a verdict of any other state. The inference accepts
it above every stack, with one stack for each place of it. -/
theorem verdictCheck_decides {p : Pool} (hp : p.Sound) (t : JavaType) (e : Emission) :
    Ends p ((Emit.verdictCheck t).run e) (fun x q => p.Grows q ∧ ∃ check : List Insn,
        x.2 = { e with insns := e.insns ++ check.toArray, nextLabel := e.nextLabel + 2 } ∧
        (∀ l, .label l ∈ check → l = e.nextLabel ∨ l = e.nextLabel + 1) ∧
        (∀ q' b before after, q.Within q' → Spliced b before check after →
          ∀ (P : Platform) w r state v rest ν, P.IsVerdict w r state v →
            P.Resolves q' b before.length (before.length + check.length) t w r state v rest ν) ∧
        ∀ below, ∃ shapes, shapes.length = check.length + 1 ∧
          shapes[0]? = some (.object Spy.verdictClass :: below) ∧ shapes[check.length]? = some below ∧
          ∀ q' b before after context h m, q.Within q' → Spliced b before check after → after ≠ [] →
            Method.ofBody b context q' h = .ok m → m.Accepts before.length check shapes)
      FormatError.IsSize := by
  refine (Emit.emits_verdictCheck (fun _ h => h) hp t).imp fun x q => ?_
  rintro ⟨hgrows, hgains, -⟩
  obtain ⟨check, hinsns, hs⟩ := hgains.insns
  have hlabels : freshLabels 0 (Block.verdictCheck t e.nextLabel (e.nextLabel + 1)) =
    [e.nextLabel, e.nextLabel + 1] := freshLabels_verdictCheck (Nat.zero_le _) t
  have hn : (freshLabels 0 (Block.verdictCheck t e.nextLabel (e.nextLabel + 1))).Nodup := by
    rw [hlabels]
    simp
  have hlen := hs.length_eq
  have stands {q' b before after} (hq : q.Within q') (hb : Spliced b before check after) :=
    Stands.of_spliced hb (hs.imp fun _ _ h => h.within hq) hn
  refine ⟨hgrows, check, hgains.eq_of_insns hinsns, fun l hl => ?_, ?_, fun below => ?_⟩
  · obtain ⟨i, hi⟩ := List.mem_iff_getElem?.1 hl
    obtain ⟨y, hy, hsettles⟩ := forall₂_getElem? hs.flip hi
    cases hsettles
    have := mem_freshLabels.2 ⟨Nat.zero_le l, List.mem_of_getElem? hy⟩
    rw [hlabels] at this
    simpa using this
  · intro q' b before after hq hb P w r state v rest ν hv
    rw [← hlen]
    exact (stands hq hb).resolves hv rest ν
  · let shapeAt : Label → Option (List VType) := fun l =>
      if l = e.nextLabel then some (.int :: .object Spy.verdictClass :: below)
      else if l = e.nextLabel + 1 then some (.object Spy.verdictClass :: below) else none
    have hplaced : ∀ l st, shapeAt l = some st →
        .place l ∈ Block.verdictCheck t e.nextLabel (e.nextLabel + 1) := by
      intro l st h
      suffices hl : l ∈ freshLabels 0 (Block.verdictCheck t e.nextLabel (e.nextLabel + 1)) from
        (mem_freshLabels.1 hl).2
      rw [hlabels]
      simp only [shapeAt] at h
      split at h
      · simp [*]
      · split at h
        · simp [*]
        · cases h
    have hl : shapeAt e.nextLabel = some (.int :: .object Spy.verdictClass :: below) := if_pos rfl
    have hl' : shapeAt (e.nextLabel + 1) = some (.object Spy.verdictClass :: below) :=
      (if_neg (Nat.succ_ne_self _)).trans (if_pos rfl)
    obtain ⟨shapes, htyped, hhead, hlast⟩ := verdictCheck_turns t hl hl'
    have hshapes := htyped.length
    rw [List.head?_eq_getElem?] at hhead
    rw [List.getLast?_eq_getElem?, hshapes, Nat.add_sub_cancel, hlen] at hlast
    rw [hlen] at hshapes
    refine ⟨shapes, hshapes, hhead, hlast, fun q' b before after context h m hq hb hafter hm => ?_⟩
    refine Method.accepts_of_typed (of_ofBody hm) (stands hq hb) (hs.imp fun _ _ h => h.within hq) htyped
      hplaced ?_
    have := List.length_pos_iff.2 hafter
    rw [hb.insns, List.length_append, List.length_append, hlen]
    omega

/-- In a method that returns a `long`, a verdict with the number seven returns it, throws it or is dropped. -/
theorem verdictCheck_decides_long : Pool.empty.Sound ∧ ∃ (q : Pool) (check : List Insn),
    ((Emit.verdictCheck .long).run ⟨#[], 0, 0, 0, []⟩).run.run Pool.empty =
      (.ok ((), ⟨check.toArray, 2, 0, 0, []⟩), q) ∧
    let leads (state : Int32) := Platform.verdicts.Leads q { insns := check ++ [.simple Op.nop] } 0
      check.length (.running 0 ⟨(), [.object (.verdict state 7), .int 5], fun _ => .null⟩)
    leads 1 (.returned [.second, .long 7] ()) ∧
    leads 2 (.thrown (.number 7) ()) ∧
    leads 0 (.running check.length ⟨(), [.int 5], fun _ => .null⟩) := by
  refine ⟨Pool.empty_sound, ?_⟩
  have hends := verdictCheck_decides Pool.empty_sound .long ⟨#[], 0, 0, 0, []⟩
  have hok : (((Emit.verdictCheck .long).run ⟨#[], 0, 0, 0, []⟩).run.run Pool.empty).1.toOption.isSome =
    true := by decide +kernel
  cases hrun : ((Emit.verdictCheck .long).run ⟨#[], 0, 0, 0, []⟩).run.run Pool.empty with
  | mk result q =>
    rw [hrun] at hok
    cases result with
    | error err => cases hok
    | ok x =>
      obtain ⟨-, check, hx, -, hruns, -⟩ := hends.of_ok hrun
      have hx : x.2 = ⟨#[] ++ check.toArray, 2, 0, 0, []⟩ := hx
      rw [Array.empty_append] at hx
      refine ⟨q, check, by rw [← hx], ?_⟩
      have resolves (state : Int32) := hruns q { insns := check ++ [.simple Op.nop] } [] [.simple Op.nop]
        (.refl q) ⟨rfl, by simp⟩ Platform.verdicts () _ state _ [.int 5] (fun _ => .null)
        (Platform.verdicts_isVerdict state 7)
      rw [List.length_nil, Nat.zero_add] at resolves
      refine ⟨(resolves 1).returns rfl () [.second, .long 7] rfl (.inr (.long 7)), ?_,
        (resolves 0).goesOn (by decide) (by decide)⟩
      obtain ⟨i, s, -, -, -, hraises⟩ := (resolves 2).throws rfl () (.number 7) rfl rfl
      exact hraises

end Interpose
