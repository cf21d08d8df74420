import Mathlib.Logic.Relation
import Mathlib.Logic.Function.Basic
import Interpose.Proofs.Inference.Height
import Interpose.Proofs.Code.Formats
/-!
# The object under construction

A constructor starts with an object that is not constructed yet. Which local variables and operands hold
it is known along every path (`Held.after`), whatever else is known of the types: frames agree with it
(`agrees_execute`), since nothing else can be merged with that object but in a local variable, which is
then lost.
-/

namespace Interpose

/-- Whether the slot holds the object under construction. -/
def VType.isThis (v : VType) : Bool :=
  v == .uninitializedThis

/-- Where the object under construction is: in local variables, and in operands from the top down. -/
structure Held where
  locals : Nat → Bool
  stack : List Bool

/-- The slots above the receiver of a constructor that an instruction invokes. -/
def Pool.constructorSlots (pool : Pool) (op : Opcode) (index : UInt16) : Option Nat := do
  let ref ← (pool.memberRef index).toOption
  let d ← (MethodDescriptor.ofDescriptor ref.descriptor).toOption
  if op = Op.invokespecial && ref.name = constructorName then some d.parameterSlots else none

namespace Held

/-- Slots are taken off the stack, and others that do not hold the object are put on it. -/
def shift (w : Held) (e : SlotEffect) : Held :=
  { w with stack := List.replicate e.pushed false ++ w.stack.drop e.taken }

/-- The object is constructed. -/
def released (w : Held) : Held :=
  { locals := fun _ => false, stack := w.stack.map fun _ => false }

def thrown (w : Held) : Held :=
  { w with stack := [false] }

def simple (op : Opcode) (w : Held) : Held :=
  match simpleEffect op with
  | some (.copy copied below) =>
    { w with stack := (w.stack.take (copied + below) ++ (w.stack.take (copied + below)).take copied) ++
        w.stack.drop (copied + below) }
  | some .swap => { w with stack := (w.stack.take 2).reverse ++ w.stack.drop 2 }
  | _ => w.shift ((Op.effect op).getD ⟨0, 0⟩)

def var (op : Opcode) (slot : Nat) (w : Held) : Held :=
  if op ≤ Op.aload then
    if op = Op.iload ∨ op = Op.lload ∨ op = Op.fload ∨ op = Op.dload then
      w.shift ⟨0, Op.movedSlots op⟩
    else { w with stack := w.locals slot :: w.stack }
  else
    { locals := Function.update w.locals slot ((w.stack[Op.movedSlots op - 1]?).getD false)
      stack := w.stack.drop (Op.movedSlots op) }

def after (pool : Pool) (insn : Insn) (w : Held) : Held :=
  match insn with
  | .simple op => w.simple op
  | .var op slot => w.var op slot.toNat
  | .method op index =>
    let moved := w.shift ((insn.effect pool).getD ⟨0, 0⟩)
    if (pool.constructorSlots op index).any fun n => w.stack[n]? = some true then moved.released
    else moved
  | _ => w.shift ((insn.effect pool).getD ⟨0, 0⟩)

structure Free (w : Held) : Prop where
  locals : ∀ n, w.locals n = false
  stack : ∀ x ∈ w.stack, x = false

/-- The frame says the same, as far as it says anything about a local variable. -/
structure Agrees (w : Held) (f : Frame) : Prop where
  stack : w.stack = f.stack.map VType.isThis
  locals : ∀ (n : Nat) (v : VType), f.locals[n]? = some v → v = .top ∨ w.locals n = v.isThis

/-! ## Nothing comes from nothing -/

section Free

variable {w : Held} (hw : w.Free)
include hw

theorem Free.shift (e : SlotEffect) : (w.shift e).Free := by
  refine ⟨hw.locals, fun x hx => ?_⟩
  rcases List.mem_append.1 hx with hx | hx
  · exact List.eq_of_mem_replicate hx
  · exact hw.stack x (List.mem_of_mem_drop hx)

omit hw in
theorem free_released : w.released.Free := by
  refine ⟨fun _ => rfl, fun x hx => ?_⟩
  obtain ⟨-, -, rfl⟩ := List.mem_map.1 hx
  rfl

theorem Free.thrown : w.thrown.Free :=
  ⟨hw.locals, fun _ hx => List.mem_singleton.1 hx⟩

theorem Free.simple (op : Opcode) : (w.simple op).Free := by
  unfold Held.simple
  split
  · refine ⟨hw.locals, fun x hx => ?_⟩
    rcases List.mem_append.1 hx with hx | hx
    · rcases List.mem_append.1 hx with hx | hx
      · exact hw.stack x (List.mem_of_mem_take hx)
      · exact hw.stack x (List.mem_of_mem_take (List.mem_of_mem_take hx))
    · exact hw.stack x (List.mem_of_mem_drop hx)
  · refine ⟨hw.locals, fun x hx => ?_⟩
    rcases List.mem_append.1 hx with hx | hx
    · exact hw.stack x (List.mem_of_mem_take (List.mem_reverse.1 hx))
    · exact hw.stack x (List.mem_of_mem_drop hx)
  · exact hw.shift _

theorem Free.var (op : Opcode) (slot : Nat) : (w.var op slot).Free := by
  unfold Held.var
  split
  · split
    · exact hw.shift _
    · refine ⟨hw.locals, fun x hx => ?_⟩
      rcases List.mem_cons.1 hx with rfl | hx
      · exact hw.locals slot
      · exact hw.stack x hx
  · refine ⟨fun n => ?_, fun x hx => hw.stack x (List.mem_of_mem_drop hx)⟩
    simp only [Function.update_apply]
    split
    · cases hs : w.stack[Op.movedSlots op - 1]? with
      | none => rfl
      | some x => exact hw.stack x (List.mem_of_getElem? hs)
    · exact hw.locals n

theorem Free.after (pool : Pool) (insn : Insn) : (w.after pool insn).Free := by
  cases insn with
  | simple op => exact hw.simple op
  | var op slot => exact hw.var op slot.toNat
  | method op index =>
    simp only [Held.after]
    split
    · exact free_released
    · exact hw.shift _
  | _ => exact hw.shift _

end Free

end Held

/-! ## Frames agree -/

namespace Machine

variable {m m' k : Machine} {i : Nat}

structure Drops (m k : Machine) (n : Nat) : Prop where
  locals : k.locals = m.locals
  stack : k.stack = m.stack.drop n

theorem Drops.trans {k' : Machine} {n n' : Nat} (h : m.Drops k n) (h' : k.Drops k' n') :
    m.Drops k' (n + n') :=
  ⟨h'.locals.trans h.locals, by rw [h'.stack, h.stack, List.drop_drop]⟩

theorem drops_popSlots {n : Nat} {vs : List VType} (h : m.popSlots i n = .ok (vs, k)) :
    m.Drops k n ∧ vs = m.stack.take n := by
  unfold popSlots at h
  split at h
  · cases h
  · cases h
    exact ⟨⟨rfl, rfl⟩, rfl⟩

theorem drops_dropSlots {n : Nat} (h : m.dropSlots i n = .ok k) : m.Drops k n := by
  obtain ⟨⟨vs, k'⟩, hp, rfl⟩ := map_eq_ok.1 h
  exact (drops_popSlots hp).1

theorem drops_pop {v : VType} (h : m.pop i = .ok (v, k)) : m.Drops k 1 ∧ m.stack[0]? = some v := by
  unfold pop at h
  split at h
  · rename_i hs
    cases h
    exact ⟨⟨rfl, by rw [hs]; rfl⟩, by rw [hs]; rfl⟩
  · cases h

theorem drops_popReference {v : VType} (h : m.popReference i = .ok (v, k)) :
    m.Drops k 1 ∧ m.stack[0]? = some v :=
  drops_pop (popReference_eq_ok.1 h).1

/-- Slots are taken off the stack, and others that do not hold the object are put on it. -/
structure Plain (m m' : Machine) (e : SlotEffect) : Prop where
  locals : m'.locals = m.locals
  stack : m'.stack.map VType.isThis =
    List.replicate e.pushed false ++ (m.stack.map VType.isThis).drop e.taken

theorem isThis_eq_false {v : VType} (h : v ≠ .uninitializedThis) : v.isThis = false := by
  unfold VType.isThis
  simpa using h

theorem slots_isThis {v : VType} (h : v ≠ .uninitializedThis) :
    v.slots.map VType.isThis = List.replicate v.slots.length false := by
  unfold VType.slots
  split
  · simp only [List.map_cons, List.map_nil, isThis_eq_false h]
    rfl
  · simp only [List.map_cons, List.map_nil, isThis_eq_false h]
    rfl

theorem Drops.plain {n : Nat} (h : m.Drops k n) : m.Plain k ⟨n, 0⟩ :=
  ⟨h.locals, by rw [h.stack, List.map_drop]; rfl⟩

theorem Drops.push {n : Nat} (h : m.Drops k n) (v : VType) (hv : v ≠ .uninitializedThis) :
    m.Plain (k.push v) ⟨n, v.slots.length⟩ := by
  refine ⟨h.locals, ?_⟩
  change (v.slots.reverse ++ k.stack).map VType.isThis = _
  rw [List.map_append, List.map_reverse, slots_isThis hv, List.reverse_replicate, h.stack,
    List.map_drop]

theorem drops_refl (m : Machine) : m.Drops m 0 := ⟨rfl, rfl⟩

theorem ofJava_ne_this (t : JavaType) : VType.ofJava t ≠ .uninitializedThis := by
  cases t <;> exact nofun

theorem Drops.pushJava {n : Nat} (h : m.Drops k n) (t : JavaType) :
    m.Plain (k.pushJava t) ⟨n, t.slots⟩ := by
  unfold Machine.pushJava
  by_cases ht : t = .void
  · rw [if_pos ht, ht]
    exact h.plain
  · rw [if_neg ht]
    rw [← slots_ofJava ht]
    exact h.push _ (ofJava_ne_this t)

theorem Drops.pushOption {n : Nat} (h : m.Drops k n) {v : Option VType}
    (hv : v ≠ some .uninitializedThis) : m.Plain (k.pushOption v) ⟨n, v.elim 0 (·.slots.length)⟩ := by
  cases v with
  | none => exact h.plain
  | some v => exact h.push v fun e => hv (by rw [e])

theorem Plain.agrees {e : SlotEffect} (h : m.Plain m' e) {w : Held} (hw : w.Agrees m.toFrame) :
    (w.shift e).Agrees m'.toFrame := by
  refine ⟨?_, fun n v hv => hw.locals n v (h.locals ▸ hv)⟩
  rw [h.stack, ← hw.stack]
  rfl

theorem elementType_ne_this (v : VType) : elementType v ≠ .uninitializedThis := by
  unfold elementType
  split
  · split <;> exact nofun
  · exact nofun
  · exact nofun

/-- No opcode that stands alone pushes the object as something new. -/
theorem simpleEffect_ne_this (op : Opcode) :
    (simpleEffect op).bind SimpleEffect.pushed? ≠ some .uninitializedThis := by
  revert op
  refine Op.all ?_
  decide +kernel

theorem agrees_simple {op : Opcode} (h : m.simple i op = .ok m') {w : Held}
    (hw : w.Agrees m.toFrame) : (w.simple op).Agrees m'.toFrame := by
  have hne := simpleEffect_ne_this op
  unfold Machine.simple at h
  unfold Held.simple
  rw [Op.effect_eq]
  cases he : simpleEffect op with
  | none =>
    rw [he] at h
    cases h
  | some e =>
    rw [he] at h hne
    cases e with
    | slots taken pushed =>
      obtain ⟨k, hk, h⟩ := bind_eq_ok.1 h
      cases h
      exact ((drops_dropSlots hk).pushOption hne).agrees hw
    | reference pushed =>
      obtain ⟨⟨v, k⟩, hk, h⟩ := bind_eq_ok.1 h
      cases h
      exact ((drops_popReference hk).1.pushOption hne).agrees hw
    | element type =>
      obtain ⟨⟨v, k⟩, hk, h⟩ := bind_eq_ok.1 h
      obtain ⟨⟨array, k'⟩, hk', h⟩ := bind_eq_ok.1 h
      cases h
      have hdrops := (drops_pop hk).1.trans (drops_popReference hk').1
      cases type with
      | none =>
        have hplain := hdrops.push _ (elementType_ne_this array)
        rw [length_slots_of_reference (elementType_reference array)] at hplain
        exact hplain.agrees hw
      | some v => exact (hdrops.push v fun e => hne (congrArg some e)).agrees hw
    | copy copied below =>
      obtain ⟨⟨vs, k⟩, hk, h⟩ := bind_eq_ok.1 h
      cases h
      obtain ⟨hdrops, rfl⟩ := drops_popSlots hk
      refine ⟨?_, fun n v hv => hw.locals n v (hdrops.locals ▸ hv)⟩
      change _ = ((_ ++ _) ++ k.stack).map VType.isThis
      rw [hdrops.stack, hw.stack]
      simp only [List.map_append, List.map_take, List.map_drop]
    | swap =>
      obtain ⟨⟨vs, k⟩, hk, h⟩ := bind_eq_ok.1 h
      cases h
      obtain ⟨hdrops, rfl⟩ := drops_popSlots hk
      refine ⟨?_, fun n v hv => hw.locals n v (hdrops.locals ▸ hv)⟩
      change _ = (_ ++ k.stack).map VType.isThis
      rw [hdrops.stack, hw.stack]
      simp only [List.map_append, List.map_reverse, List.map_take, List.map_drop]

theorem agrees_load {op : Opcode} {slot : Nat} (hop : op ≤ Op.aload) (h : m.load i op slot = .ok m')
    {w : Held} (hw : w.Agrees m.toFrame) : (w.var op slot).Agrees m'.toFrame := by
  unfold Machine.load at h
  unfold Held.var
  rw [if_pos hop]
  have typed : ∀ {v : VType}, v ≠ .uninitializedThis → v.slots.length = Op.movedSlots op →
      (w.shift ⟨0, Op.movedSlots op⟩).Agrees (m.push v).toFrame := by
    intro v hv hlength
    rw [← hlength]
    exact ((drops_refl m).push v hv).agrees hw
  cases hv : m.locals[slot]? with
  | none =>
    rw [hv] at h
    cases h
  | some v =>
    simp only [hv] at h
    by_cases h1 : op = Op.iload
    · subst h1
      cases h
      exact typed nofun rfl
    by_cases h2 : op = Op.lload
    · subst h2
      cases h
      exact typed nofun rfl
    by_cases h3 : op = Op.fload
    · subst h3
      cases h
      exact typed nofun rfl
    by_cases h4 : op = Op.dload
    · subst h4
      cases h
      exact typed nofun rfl
    simp only [h1, h2, h3, h4, or_self, if_false] at h ⊢
    split at h
    · rename_i hreference
      cases h
      refine ⟨?_, hw.locals⟩
      change w.locals slot :: w.stack = (v.slots.reverse ++ m.stack).map VType.isThis
      rcases hw.locals slot v hv with rfl | hlocal
      · cases hreference
      · rw [hlocal, hw.stack]
        cases v with
        | top | int | float | long | double => cases hreference
        | _ => rfl
    · cases h

/-- What is in a local variable after a store. -/
theorem getElem?_storeLocal {slot n : Nat} {v u : VType} {ls : List VType}
    (h : (storeLocal slot v ls)[n]? = some u) :
    u = .top ∨ (n = slot ∧ u = v) ∨ (n ≠ slot ∧ ls[n]? = some u) := by
  have padded : ∀ {k : Nat} {u : VType}, (padLocals k ls)[n]? = some u → u = .top ∨ ls[n]? = some u := by
    intro k u hu
    unfold padLocals at hu
    rw [List.getElem?_append] at hu
    split at hu
    · exact .inr hu
    · exact .inl (List.eq_of_mem_replicate (List.mem_of_getElem? hu))
  have broken : ∀ {k : Nat} {u : VType}, (breakBefore slot (padLocals k ls))[n]? = some u →
      u = .top ∨ ls[n]? = some u := by
    intro k u hu
    unfold breakBefore at hu
    split at hu
    · exact padded hu
    · split at hu
      · rw [List.getElem?_set] at hu
        split at hu
        · split at hu
          · exact .inl (Option.some.inj hu).symm
          · cases hu
        · exact padded hu
      · exact padded hu
  have stored : ∀ {u : VType}, ((breakBefore slot (padLocals (slot + v.slots.length) ls)).set slot v)[n]? =
      some u → u = .top ∨ (n = slot ∧ u = v) ∨ (n ≠ slot ∧ ls[n]? = some u) := by
    intro u hu
    rw [List.getElem?_set] at hu
    split at hu
    · split at hu
      · exact .inr (.inl ⟨Eq.symm ‹_›, (Option.some.inj hu).symm⟩)
      · cases hu
    · rcases broken hu with hu | hu
      · exact .inl hu
      · exact .inr (.inr ⟨Ne.symm ‹_›, hu⟩)
  unfold storeLocal at h
  simp only at h
  split at h
  · rw [List.getElem?_set] at h
    split at h
    · split at h
      · exact .inl (Option.some.inj h).symm
      · cases h
    · exact stored h
  · exact stored h

theorem agrees_store {op : Opcode} {slot : Nat} (hop : ¬ op ≤ Op.aload) (h : m.store i op slot = .ok m')
    {w : Held} (hw : w.Agrees m.toFrame) : (w.var op slot).Agrees m'.toFrame := by
  rw [store_eq] at h
  obtain ⟨⟨v, k⟩, hp, rfl⟩ := map_eq_ok.1 h
  have popped : m.Drops k (Op.movedSlots op) ∧ ((m.stack.map VType.isThis)[Op.movedSlots op - 1]?).getD
      false = v.isThis := by
    unfold popStored at hp
    by_cases hwide : (op = Op.lstore || op = Op.dstore) = true
    · rw [if_pos hwide] at hp
      obtain ⟨⟨vs, k'⟩, hp, he⟩ := map_eq_ok.1 hp
      cases he
      obtain ⟨hdrops, rfl⟩ := drops_popSlots hp
      have hlength := (height_popSlots hp).1
      have hmoved : Op.movedSlots op = 2 := by
        unfold Op.movedSlots
        rcases Bool.or_eq_true_iff.1 hwide with h | h <;> simp [of_decide_eq_true h]
      rw [hmoved]
      refine ⟨hdrops, ?_⟩
      obtain ⟨a, b, rest, hs⟩ : ∃ a b rest, m.stack = a :: b :: rest := by
        match hs : m.stack, hlength with
        | a :: b :: rest, _ => exact ⟨a, b, rest, rfl⟩
      rw [hs]
      rfl
    · rw [if_neg hwide] at hp
      have one : m.Drops k 1 ∧ m.stack[0]? = some v := by
        split at hp
        · exact drops_popReference hp
        · exact drops_pop hp
      simp only [Bool.or_eq_true, decide_eq_true_eq, not_or] at hwide
      have hmoved : Op.movedSlots op = 1 :=
        movedSlots_of_narrow (fun e => hop (by rw [e]; decide)) (fun e => hop (by rw [e]; decide))
          hwide.1 hwide.2
      rw [hmoved]
      refine ⟨one.1, ?_⟩
      rw [List.getElem?_map, one.2]
      rfl
  unfold Held.var
  rw [if_neg hop]
  refine ⟨?_, fun n u hu => ?_⟩
  · change _ = k.stack.map VType.isThis
    rw [popped.1.stack, hw.stack, List.map_drop]
  · rw [hw.stack, popped.2]
    rcases getElem?_storeLocal hu with hu | ⟨rfl, rfl⟩ | ⟨hne, hu⟩
    · exact .inl hu
    · exact .inr (Function.update_self ..)
    · refine (hw.locals n u (popped.1.locals ▸ hu)).imp id fun hlocal => ?_
      exact (Function.update_of_ne hne _ _).trans hlocal

/-- Constructing another object changes nothing, constructing this one leaves none. -/
theorem agrees_construct {w : Held} (hw : w.Agrees m.toFrame) (owner : String) (v : VType) :
    (if v.isThis then w.released else w).Agrees (m.construct owner v).toFrame := by
  cases v with
  | uninitializedThis =>
    have gone : ∀ u : VType, (if u = .uninitializedThis then VType.object owner else u).isThis = false := by
      intro u
      split
      · rfl
      · exact isThis_eq_false ‹_›
    refine ⟨?_, fun n u hu => ?_⟩
    · change w.stack.map _ = (m.stack.map _).map VType.isThis
      rw [hw.stack, List.map_map, List.map_map]
      exact List.map_congr_left fun u _ => (gone u).symm
    · change (m.locals.map _)[n]? = some u at hu
      rw [List.getElem?_map, Option.map_eq_some_iff] at hu
      obtain ⟨u', -, rfl⟩ := hu
      exact .inr (gone u').symm
  | uninitialized site name =>
    have same : ∀ u : VType,
        (if u = .uninitialized site name then VType.object name else u).isThis = u.isThis := by
      intro u
      split
      · rename_i he
        rw [he]
        rfl
      · rfl
    refine ⟨?_, fun n u hu => ?_⟩
    · change w.stack = (m.stack.map _).map VType.isThis
      rw [hw.stack, List.map_map]
      exact List.map_congr_left fun u _ => (same u).symm
    · change (m.locals.map _)[n]? = some u at hu
      rw [List.getElem?_map, Option.map_eq_some_iff] at hu
      obtain ⟨u', hu', rfl⟩ := hu
      rcases hw.locals n u' hu' with rfl | hlocal
      · exact .inl rfl
      · exact .inr (hlocal.trans (same u').symm)
  | _ => exact hw

end Machine

section Execute

variable {p q : Pool} (hpq : p.Within q) {owner : String} {i : Nat} {m m' : Machine} {w : Held}

theorem constantType_ne_this {index : UInt16} {v : VType} (h : constantType p i index = .ok v) :
    v ≠ .uninitializedThis := by
  obtain ⟨c, -, h⟩ := bind_eq_ok.1 h
  cases c with
  | dynamic _ nat =>
    obtain ⟨⟨_, d⟩, -, h⟩ := bind_eq_ok.1 h
    obtain ⟨t, -, h⟩ := bind_eq_ok.1 h
    cases h
    exact Machine.ofJava_ne_this t
  | integer _ | float _ | long _ | double _ | stringRef _ | classRef _ | methodType _
  | methodHandle _ _ =>
    cases h
    exact nofun
  | _ => cases h

include hpq

theorem agrees_field {op : Opcode} {index : UInt16} (hw : w.Agrees m.toFrame)
    (h : execute p owner i (.field op index) m = .ok m') :
    (w.after q (.field op index)).Agrees m'.toFrame := by
  obtain ⟨ref, hr, h⟩ := bind_eq_ok.1 h
  obtain ⟨type, ht, h⟩ := bind_eq_ok.1 h
  simp only [Held.after, Insn.effect, bind_toOption (hpq.memberRef (mapError_eq_ok.1 hr)),
    bind_toOption (mapError_eq_ok.1 ht)]
  by_cases h1 : op = Op.getstatic
  · simp only [h1, if_true] at h ⊢
    cases h
    exact ((Machine.drops_refl m).pushJava type).agrees hw
  by_cases h2 : op = Op.putstatic
  · simp only [h2, if_true] at h ⊢
    exact (Machine.drops_dropSlots h).plain.agrees hw
  by_cases h3 : op = Op.getfield
  · simp only [h3, if_true] at h ⊢
    obtain ⟨⟨v, k⟩, hk, h⟩ := bind_eq_ok.1 h
    cases h
    exact ((Machine.drops_popReference hk).1.pushJava type).agrees hw
  · simp only [h1, h2, h3, if_false] at h ⊢
    obtain ⟨k, hk, h⟩ := bind_eq_ok.1 h
    obtain ⟨⟨v, k'⟩, hk', h⟩ := bind_eq_ok.1 h
    cases h
    exact ((Machine.drops_dropSlots hk).trans (Machine.drops_popReference hk').1).plain.agrees hw

theorem agrees_method {op : Opcode} {index : UInt16} (hw : w.Agrees m.toFrame)
    (h : execute p owner i (.method op index) m = .ok m') :
    (w.after q (.method op index)).Agrees m'.toFrame := by
  obtain ⟨ref, hr, h⟩ := bind_eq_ok.1 h
  obtain ⟨d, hd, h⟩ := bind_eq_ok.1 h
  obtain ⟨k, hk, h⟩ := bind_eq_ok.1 h
  have hslots : q.constructorSlots op index =
      if op = Op.invokespecial && ref.name = constructorName then some d.parameterSlots else none := by
    unfold Pool.constructorSlots
    rw [bind_toOption (hpq.memberRef (mapError_eq_ok.1 hr)), bind_toOption (mapError_eq_ok.1 hd)]
  simp only [Held.after, Insn.effect, bind_toOption (hpq.memberRef (mapError_eq_ok.1 hr)),
    bind_toOption (mapError_eq_ok.1 hd), hslots]
  have hdrops := Machine.drops_dropSlots hk
  by_cases hstatic : op = Op.invokestatic
  · have hspecial : (op = Op.invokespecial && ref.name = constructorName) = false := by
      rw [hstatic]
      rfl
    simp only [hspecial, Bool.false_eq_true, if_false]
    simp only [hstatic, if_true] at h ⊢
    cases h
    exact (hdrops.pushJava _).agrees hw
  · simp only [hstatic, if_false] at h ⊢
    obtain ⟨⟨v, k'⟩, hk', h⟩ := bind_eq_ok.1 h
    cases h
    obtain ⟨hpop, hreceiver⟩ := Machine.drops_popReference hk'
    have hboth := hdrops.trans hpop
    by_cases hconstructs : (op = Op.invokespecial && ref.name = constructorName) = true
    · rw [if_pos hconstructs]
      simp only [hconstructs, if_true]
      have hflag : (w.stack[d.parameterSlots]? = some true) ↔ v.isThis = true := by
        rw [hdrops.stack, List.getElem?_drop, Nat.add_zero] at hreceiver
        have hstack : w.stack = m.stack.map VType.isThis := hw.stack
        rw [hstack, List.getElem?_map, hreceiver]
        simp
      -- the slots below the receiver are those that are constructed
      have hagrees := hboth.plain.agrees hw
      have hconstructed := Machine.agrees_construct hagrees owner v
      have hpushed := ((Machine.drops_refl (k'.construct owner v)).pushJava d.returnType).agrees
        hconstructed
      cases hv : v.isThis with
      | false =>
        rw [hv] at hpushed hflag
        simp only [Option.any_some, hflag, Bool.false_eq_true, decide_false, if_false] at hpushed ⊢
        exact hpushed
      | true =>
        rw [hv] at hpushed hflag
        simp only [Option.any_some, hflag, decide_true, if_true] at hpushed ⊢
        refine ⟨Eq.trans ?_ hpushed.stack, hpushed.locals⟩
        simp [Held.released, Held.shift, MethodDescriptor.effect]
    · rw [if_neg hconstructs]
      simp only [hconstructs, Bool.false_eq_true, if_false, Option.any_none]
      exact (hboth.pushJava _).agrees hw

/-- Behind an instruction frames still agree. -/
theorem agrees_execute {insn : Insn} (hw : w.Agrees m.toFrame)
    (h : execute p owner i insn m = .ok m') : (w.after q insn).Agrees m'.toFrame := by
  have unmoved : (w.shift ⟨0, 0⟩).Agrees m.toFrame := (Machine.drops_refl m).plain.agrees hw
  cases insn with
  | label _ | line _ =>
    cases h
    exact unmoved
  | simple op => exact Machine.agrees_simple h hw
  | int op value =>
    simp only [execute] at h
    simp only [Held.after, Insn.effect]
    split at h
    · rename_i hop
      rw [if_pos hop]
      obtain ⟨⟨v, k⟩, hk, h⟩ := bind_eq_ok.1 h
      split at h
      · cases h
        exact ((Machine.drops_pop hk).1.push (.object _) (fun hthis => by cases hthis)).agrees hw
      · cases h
    · rename_i hop
      rw [if_neg hop]
      cases h
      exact ((Machine.drops_refl m).push .int (fun hthis => by cases hthis)).agrees hw
  | var op slot =>
    simp only [execute] at h
    simp only [Held.after]
    split at h
    · exact Machine.agrees_load ‹_› h hw
    · exact Machine.agrees_store ‹_› h hw
  | iinc slot delta =>
    simp only [execute] at h
    split at h
    · cases h
      exact unmoved
    · cases h
  | type op index =>
    obtain ⟨name, -, h⟩ := bind_eq_ok.1 h
    simp only [Held.after, Insn.effect]
    by_cases h1 : op = Op.newObject
    · simp only [h1, if_true] at h ⊢
      cases h
      exact ((Machine.drops_refl m).push (.uninitialized i name) (fun hthis => by cases hthis)).agrees hw
    · simp only [h1, if_false] at h ⊢
      by_cases h2 : op = Op.anewarray
      · simp only [h2, if_true] at h
        obtain ⟨⟨v, k⟩, hk, h⟩ := bind_eq_ok.1 h
        cases h
        exact ((Machine.drops_pop hk).1.push (.object _) (fun hthis => by cases hthis)).agrees hw
      · simp only [h2, if_false] at h
        obtain ⟨⟨v, k⟩, hk, h⟩ := bind_eq_ok.1 h
        cases h
        split
        · exact ((Machine.drops_popReference hk).1.push (.object name) (fun hthis => by cases hthis)).agrees hw
        · exact ((Machine.drops_popReference hk).1.push .int (fun hthis => by cases hthis)).agrees hw
  | field op index => exact agrees_field hpq hw h
  | method op index => exact agrees_method hpq hw h
  | dynamic index =>
    obtain ⟨d, hd, h⟩ := bind_eq_ok.1 h
    obtain ⟨k, hk, h⟩ := bind_eq_ok.1 h
    cases h
    have heffect : (Insn.dynamic index).effect q = some d.effect := by
      have hd := callSiteDescriptor_within hpq (j := i) hd
      obtain ⟨c, hc, hd⟩ := bind_eq_ok.1 hd
      simp only [Insn.effect, mapError_eq_ok.1 hc]
      cases c with
      | invokeDynamic _ nat =>
        obtain ⟨⟨name, descriptor⟩, hn, hd⟩ := bind_eq_ok.1 hd
        simp only [bind_toOption (mapError_eq_ok.1 hn), bind_toOption (mapError_eq_ok.1 hd)]
        rfl
      | _ => cases hd
    simp only [Held.after, heffect]
    exact ((Machine.drops_dropSlots hk).pushJava _).agrees hw
  | ldc index =>
    obtain ⟨v, hv, h⟩ := bind_eq_ok.1 h
    cases h
    have heffect : (Insn.ldc index).effect q = some ⟨0, v.slots.length⟩ := by
      simp only [Insn.effect, loadedSlots_of_constantType (constantType_within hpq (j := i) hv).1]
      rfl
    simp only [Held.after, heffect]
    exact ((Machine.drops_refl m).push v (constantType_ne_this hv)).agrees hw
  | jump op target =>
    simp only [execute] at h
    simp only [Held.after, Insn.effect]
    split at h
    · rename_i h1
      cases h
      simp only [h1, if_true]
      exact unmoved
    · rename_i h1
      simp only [h1, if_false]
      split at h
      · rename_i h2
        simp only [h2, if_true]
        exact (Machine.drops_dropSlots h).plain.agrees hw
      · rename_i h2
        simp only [h2]
        exact (Machine.drops_dropSlots h).plain.agrees hw
  | tableSwitch _ _ _ | lookupSwitch _ _ => exact (Machine.drops_dropSlots h).plain.agrees hw
  | multiNewArray index dims =>
    obtain ⟨k, hk, h⟩ := bind_eq_ok.1 h
    obtain ⟨name, -, h⟩ := bind_eq_ok.1 h
    cases h
    exact ((Machine.drops_dropSlots hk).push (.object name) (fun hthis => by cases hthis)).agrees hw

end Execute

end Interpose
