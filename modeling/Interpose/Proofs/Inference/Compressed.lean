import Mathlib.Data.List.Nodup
import Interpose.Proofs.Inference.Result
/-!
# Compressed frames

A class file lists the locals of a frame value by value, and mostly by how they differ from those of the
frame before: the same, some values less at the end, some values more. Inference keeps locals slot by slot,
where the second half of a `long` and a local of type `top` are the same. Both agree on every list of
frames (`expandFrames_values`): a slot form never ends in a first half, so its last slots tell whether the
last value takes one slot or two (`dropLastValue_slots`).

Results:
* `chopLocals_slots`: locals lose as many values as their slot form loses.
* `expandFrames_values`: declared frames expand to the slot form of the values that they describe.
* `declaredFrames_values`: so they do where their labels are placed.
-/

namespace Interpose

/-! ## Frames by values -/

/-- The type that a listed type stands for, with the names of classes given. -/
def VerificationType.typeBy (name : UInt16 → String) : VerificationType → VType
  | top | uninitialized _ | uninitializedThis => .top
  | integer => .int
  | float => .float
  | long => .long
  | double => .double
  | null => .null
  | object index => .object (name index)

/-- The class index of a listed type is that of a class of the pool, with the name that is given. -/
def VerificationType.Resolves (pool : Pool) (name : UInt16 → String) (t : VerificationType) : Prop :=
  ∀ index, t = .object index → pool.className index = .ok (name index)

namespace StackMapFrame

/-- The types that a frame lists. -/
def types : StackMapFrame → List VerificationType
  | same _ | sameExtended _ | chop _ _ => []
  | sameStack _ t | sameStackExtended _ t => [t]
  | append _ added => added
  | full _ all stack => all ++ stack

def nextLocals (name : UInt16 → String) (before : List VType) : StackMapFrame → List VType
  | same _ | sameExtended _ | sameStack _ _ | sameStackExtended _ _ => before
  | chop _ k => before.take (before.length - k.toNat)
  | append _ added => before ++ added.map (·.typeBy name)
  | full _ all _ => all.map (·.typeBy name)

/-- The operands at a frame, the top of the stack last. -/
def operands (name : UInt16 → String) : StackMapFrame → List VType
  | same _ | sameExtended _ | chop _ _ | append _ _ => []
  | sameStack _ t | sameStackExtended _ t => [t.typeBy name]
  | full _ _ stack => stack.map (·.typeBy name)

end StackMapFrame

/-- The locals at the last of some frames, given those in front of the first. -/
def localsAfter (name : UInt16 → String) (start : List VType) (ds : List (Label × StackMapFrame)) :
    List VType :=
  ds.foldl (fun before d => d.2.nextLocals name before) start

/-- The locals in which a method starts: its receiver and its parameters. -/
def initialLocals (m : MethodContext) : List VType :=
  (if m.isStatic then []
    else if m.startsUninitialized then [.uninitializedThis]
    else [.object m.owner]) ++ m.descriptor.parameters.map VType.ofJava

def Frame.ofValues (locals operands : List VType) : Frame :=
  ⟨locals.flatMap VType.slots, (operands.flatMap VType.slots).reverse⟩

theorem initialFrame_eq (m : MethodContext) : initialFrame m = .ofValues (initialLocals m) [] := by
  have hreceiver : ∀ v : VType, v.isWide = false → [v].flatMap VType.slots = [v] := by
    intro v hv
    simp [VType.slots, hv]
  unfold initialFrame initialLocals Frame.ofValues
  rw [List.flatMap_append, List.flatMap_map]
  split
  · rfl
  · split <;> rw [hreceiver _ rfl] <;> rfl

/-! ## The last value -/

variable {pool : Pool} {name : UInt16 → String}

/-- A slot form does not end in the first half of a value. -/
theorem getLast?_slots (vs : List VType) (v : VType) (h : (vs.flatMap VType.slots).getLast? = some v) :
    v.isWide = false := by
  induction vs using List.reverseRecOn with
  | nil => cases h
  | append_singleton vs u =>
    rw [List.flatMap_append, List.flatMap_singleton] at h
    unfold VType.slots at h
    split at h
    · rw [List.getLast?_append] at h
      cases h
      rfl
    · rename_i hu
      rw [List.getLast?_append] at h
      cases h
      simpa using hu

theorem dropLastValue_slots (vs : List VType) :
    dropLastValue (vs.flatMap VType.slots).reverse = (vs.dropLast.flatMap VType.slots).reverse := by
  induction vs using List.reverseRecOn with
  | nil => rfl
  | append_singleton vs v =>
    rw [List.dropLast_concat, List.flatMap_append, List.flatMap_singleton, List.reverse_append]
    have hlast := getLast?_slots vs
    rw [← List.head?_reverse] at hlast
    cases hwide : v.isWide with
    | true => simp [VType.slots, hwide, dropLastValue]
    | false =>
      -- A single slot: only behind a first half it would count as a second half.
      simp only [VType.slots, hwide, Bool.false_eq_true, if_false, List.reverse_singleton,
        List.singleton_append]
      generalize (vs.flatMap VType.slots).reverse = before at hlast
      cases before with
      | nil => cases v <;> rfl
      | cons u before =>
        have hu := hlast u rfl
        cases v <;> simp [dropLastValue, hu]

/-- Locals lose as many values as their slot form loses. -/
theorem chopLocals_slots (k : Nat) (vs : List VType) :
    chopLocals k (vs.flatMap VType.slots) = (vs.take (vs.length - k)).flatMap VType.slots := by
  have hdrop : k.repeat dropLastValue (vs.flatMap VType.slots).reverse =
      ((vs.take (vs.length - k)).flatMap VType.slots).reverse := by
    induction k with
    | zero => rw [Nat.sub_zero, List.take_length]; rfl
    | succ k ih =>
      rw [Nat.repeat, ih, dropLastValue_slots, List.dropLast_eq_take, List.take_take, List.length_take]
      congr 3
      omega
  rw [chopLocals, hdrop, List.reverse_reverse]

/-! ## Expansion -/

theorem vtype_of_resolves {t : VerificationType} (h : t.Resolves pool name) :
    t.vtype pool = .ok (t.typeBy name) := by
  cases t with
  | object index => rw [VerificationType.vtype, h index rfl]; rfl
  | _ => rfl

theorem declaredSlots_of_resolves {ts : List VerificationType} (h : ∀ t ∈ ts, t.Resolves pool name) :
    declaredSlots pool ts = .ok ((ts.map (·.typeBy name)).flatMap VType.slots) := by
  have htypes : ts.mapM (VerificationType.vtype pool) = .ok (ts.map (·.typeBy name)) :=
    mapM_eq_ok.2 (List.forall₂_map_right_iff.2
      (List.forall₂_same.2 fun t ht => vtype_of_resolves (h t ht)))
  rw [declaredSlots, htypes]
  rfl

/-- One frame expands to the slot form of the values that it describes. -/
theorem expandFrame_values {f : StackMapFrame} (h : ∀ t ∈ f.types, t.Resolves pool name)
    (before : List VType) :
    expandFrame pool (before.flatMap VType.slots) f =
      .ok (.ofValues (f.nextLocals name before) (f.operands name)) := by
  cases f with
  | same _ | sameExtended _ => rfl
  | sameStack _ t | sameStackExtended _ t =>
    have hstack : declaredSlots pool [t] = _ := declaredSlots_of_resolves h
    rw [expandFrame, hstack]
    rfl
  | chop _ k => rw [expandFrame, chopLocals_slots]; rfl
  | append _ added =>
    have hadded : declaredSlots pool added = _ := declaredSlots_of_resolves h
    rw [expandFrame, hadded, StackMapFrame.nextLocals, Frame.ofValues, List.flatMap_append]
    rfl
  | full _ all stack =>
    have hall := declaredSlots_of_resolves fun t ht => h t (List.mem_append_left stack ht)
    have hstack := declaredSlots_of_resolves fun t ht => h t (List.mem_append_right all ht)
    rw [expandFrame, hall, hstack]
    rfl

/-- Declared frames expand to the slot form of the values that they describe. -/
theorem expandFrames_values {ds : List (Label × StackMapFrame)}
    (h : ∀ d ∈ ds, ∀ t ∈ d.2.types, t.Resolves pool name) (start : List VType) :
    ∃ frames, expandFrames pool (start.flatMap VType.slots) ds = .ok frames ∧
      frames.map (·.1) = ds.map (·.1) ∧
      ∀ (k : Nat) (d : Label × StackMapFrame), ds[k]? = some d → frames[k]? =
        some (d.1, .ofValues (localsAfter name start (ds.take (k + 1))) (d.2.operands name)) := by
  induction ds generalizing start with
  | nil => exact ⟨[], rfl, rfl, fun k d hd => by simp at hd⟩
  | cons d ds ih =>
    obtain ⟨hd, hds⟩ := List.forall_mem_cons.1 h
    have hframe := expandFrame_values hd start
    obtain ⟨frames, hframes, hlabels, hat⟩ := ih hds (d.2.nextLocals name start)
    refine ⟨(d.1, .ofValues (d.2.nextLocals name start) (d.2.operands name)) :: frames, ?_, ?_, ?_⟩
    · exact bind_eq_ok.2 ⟨_, hframe, bind_eq_ok.2 ⟨_, hframes, rfl⟩⟩
    · rw [List.map_cons, List.map_cons, hlabels]
    · intro k d' hd'
      cases k with
      | zero =>
        cases hd'
        rfl
      | succ k => exact hat k d' hd'

/-- A frame stays at the instruction of its label: that is the mark of one label, and the label is that of
one frame. -/
theorem foldl_hint_of_mem {insns : List Insn} {frames : List (Label × Frame)} {x : Label × Frame} {i : Nat}
    (distinct : (frames.map (·.1)).Nodup) (hx : x ∈ frames) (hi : LastPlace insns x.1 i) :
    (frames.foldl (hint (labelPositions insns)) ∅)[i]? = some x.2 := by
  rw [foldl_hint_eq]
  cases hfind : frames.reverse.find? fun y => (labelPositions insns)[y.1]? = some i with
  | none =>
    have hnone := List.find?_eq_none.1 hfind x (List.mem_reverse.2 hx)
    exact absurd (labelPositions_eq_some.2 hi) (by simpa using hnone)
  | some y =>
    have hplace := List.find?_some hfind
    rw [decide_eq_true_eq, labelPositions_eq_some] at hplace
    have hlabel : y.1 = x.1 := by
      have hsame := hplace.1.symm.trans hi.1
      simpa using hsame
    have hy := List.mem_reverse.1 (List.mem_of_find?_eq_some hfind)
    rw [List.inj_on_of_nodup_map distinct hy hx hlabel]
    rfl

/-- Each declared frame, with its label placed, is at the instruction of the label the slot form of the
values that the frames up to it describe; and no other frame is declared. -/
theorem declaredFrames_values (b : Body) (context : MethodContext) (pool : Pool) (name : UInt16 → String)
    (distinct : (b.declaredFrames.map (·.1)).Nodup)
    (placed : ∀ d ∈ b.declaredFrames, .label d.1 ∈ b.insns)
    (resolves : ∀ d ∈ b.declaredFrames, ∀ t ∈ d.2.types, t.Resolves pool name) :
    initialFrame context = .ofValues (initialLocals context) [] ∧
    (∀ (k : Nat) d, b.declaredFrames[k]? = some d → ∃ i, LastPlace b.insns d.1 i ∧
      (declaredFrames pool context b (labelPositions b.insns))[i]? =
        some (.ofValues (localsAfter name (initialLocals context) (b.declaredFrames.take (k + 1)))
          (d.2.operands name))) ∧
    ∀ (i : Nat) f, (declaredFrames pool context b (labelPositions b.insns))[i]? = some f →
      ∃ d ∈ b.declaredFrames, LastPlace b.insns d.1 i := by
  have hinitial := initialFrame_eq context
  refine ⟨hinitial, fun k d hd => ?_, fun i f hf => ?_⟩
  · obtain ⟨frames, hframes, hlabels, hat⟩ := expandFrames_values resolves (initialLocals context)
    obtain ⟨j, hj⟩ := List.mem_iff_getElem?.1 (placed d (List.mem_of_getElem? hd))
    obtain ⟨i, hi⟩ := labelPositions_isSome hj
    refine ⟨i, hi, ?_⟩
    have hexpand : expandFrames pool (initialFrame context).locals b.declaredFrames = .ok frames := by
      rw [hinitial]
      exact hframes
    rw [declaredFrames_of_ok hexpand]
    exact foldl_hint_of_mem (hlabels ▸ distinct) (List.mem_of_getElem? (hat k d hd)) hi
  · obtain ⟨d, hd, hplace⟩ := exists_declared hf
    exact ⟨d, hd, labelPositions_eq_some.1 hplace⟩

/-- Four labels with compressed frames. A `long` stands next to a local of type `top`, and the last frame
drops more values than there are. -/
def compressedFrames : Body :=
  { Body.ofInsns [.label 0, .simple Op.iconst0, .label 1, .simple Op.pop, .label 2, .simple Op.pop2, .label 3,
      .simple Op.returnVoid] with
    declaredFrames := [(0, .append 0 [.long, .top, .object 2]), (1, .chop 0 2), (2, .sameStack 0 .double),
      (3, .chop 0 3)] }

def compressedFramesPool : Pool :=
  Pool.ofSlots [some (.utf8 "B"), some (.classRef 1)]

theorem declaredFrames_values_compressed :
    (compressedFrames.declaredFrames.map (·.1)).Nodup ∧
      (∀ d ∈ compressedFrames.declaredFrames, .label d.1 ∈ compressedFrames.insns) ∧
      (∀ d ∈ compressedFrames.declaredFrames, ∀ t ∈ d.2.types,
        t.Resolves compressedFramesPool fun _ => "B") ∧
      ∀ x ∈ [(0, Frame.mk [.long, .top, .long, .top, .top, .object "B"] []),
          (2, ⟨[.long, .top, .long, .top], []⟩), (4, ⟨[.long, .top, .long, .top], [.top, .double]⟩),
          (6, ⟨[], []⟩)],
        (declaredFrames compressedFramesPool ⟨"A", Access.staticFlag, "f", ⟨[.long], .void⟩⟩
          compressedFrames (labelPositions compressedFrames.insns))[x.1]? = some x.2 := by
  have distinct : (compressedFrames.declaredFrames.map (·.1)).Nodup := by decide
  have placed : ∀ d ∈ compressedFrames.declaredFrames, .label d.1 ∈ compressedFrames.insns := by decide
  have resolves : ∀ d ∈ compressedFrames.declaredFrames, ∀ t ∈ d.2.types,
      t.Resolves compressedFramesPool fun _ => "B" := by
    have listed : ∀ d ∈ compressedFrames.declaredFrames, ∀ t ∈ d.2.types,
        t ∈ [VerificationType.long, .top, .object 2, .double] := by decide
    rintro d hd _ ht index rfl
    obtain rfl : index = 2 := by simpa using listed d hd _ ht
    decide +kernel
  have hat := (declaredFrames_values compressedFrames ⟨"A", Access.staticFlag, "f", ⟨[.long], .void⟩⟩ _ _
    distinct placed resolves).2.1
  have here (k i : Nat) {d : Label × StackMapFrame} (hd : compressedFrames.declaredFrames[k]? = some d)
      (hi : (labelPositions compressedFrames.insns)[d.1]? = some i) :=
    let ⟨j, hj, hframe⟩ := hat k d hd
    hj.unique (labelPositions_eq_some.1 hi) ▸ hframe
  refine ⟨distinct, placed, resolves, ?_⟩
  simp only [List.forall_mem_cons]
  exact ⟨here 0 0 rfl (by decide +kernel), here 1 2 rfl (by decide +kernel),
    here 2 4 rfl (by decide +kernel), here 3 6 rfl (by decide +kernel), by simp⟩

end Interpose
