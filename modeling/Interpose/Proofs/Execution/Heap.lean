import Interpose.Proofs.Execution.Neutral
/-!
# A machine with a heap

A small platform: objects are numbers of cells of a heap that only grows, reports answer with the
verdict to go on, and a method can divide, which may throw, and call `Math.abs`. Reports make no
difference on it (`Machine.neutral`).
-/

namespace Interpose

/-- What the heap holds: what reports keep, texts and exceptions. -/
inductive Cell where
  | aside (a : Aside Nat)
  | text (text : String)
  | exception

abbrev Heap := List Cell

namespace Machine

def isA (heap : Heap) (o : Nat) (c : String) : Bool :=
  match heap[o]? with
  | some (.aside (.box t _)) => c == objectClass || some c == t.boxClass || c == numberClass
  | some (.aside _) => c == objectClass
  | some (.text _) => c == objectClass || c == stringClass
  | some .exception => c == objectClass || c == throwableClass
  | none => false

def allocate (heap : Heap) (c : Cell) (st : List (Word Nat)) : Outcome Heap Nat :=
  .done (heap ++ [c]) (.object heap.length :: st)

/-- The types that have wrappers. -/
def primitives : List JavaType :=
  [.boolean, .byte, .char, .short, .int, .long, .float, .double]

def valueOf (t : JavaType) : MemberRef :=
  ⟨t.boxClass.getD "", "valueOf", "(" ++ t.descriptor ++ ")L" ++ t.boxClass.getD "" ++ ";"⟩

def getClass : MemberRef := ⟨objectClass, "getClass", "()Ljava/lang/Class;"⟩

def getName : MemberRef := ⟨"java/lang/Class", "getName", "()Ljava/lang/String;"⟩

/-- The method that methods on this machine can call. -/
def absolute : MemberRef := ⟨"java/lang/Math", "abs", "(I)I"⟩

def callStatic (m : MemberRef) (heap : Heap) (st : List (Word Nat)) : Outcome Heap Nat :=
  match EventKind.all.find? fun k => m = Spy.method k with
  | some k => allocate heap (.aside .verdict) (st.drop (Spy.parameterTypes k).length)
  | none =>
    match primitives.find? fun t => m = valueOf t with
    | some t => allocate heap (.aside (.box t (st.take t.slots))) (st.drop t.slots)
    | none =>
      match st with
      | .int n :: st => if m = absolute then .done heap (.int (if n < 0 then -n else n) :: st) else .stuck
      | _ => .stuck

def callVirtual (m : MemberRef) (o : Nat) (heap : Heap) (st : List (Word Nat)) : Outcome Heap Nat :=
  if m = getClass then allocate heap (.aside .classObject) st
  else if m = getName then allocate heap (.text "") st
  else
    match heap[o]? with
    | some (.aside (.box t value)) =>
      if t.unboxing = JavaType.unwrapping m.owner m.name m.descriptor then .done heap (value ++ st)
      else .stuck
    | _ => .stuck

def divide (heap : Heap) : List (Word Nat) → Outcome Heap Nat
  | .int b :: .int a :: st =>
    if b = 0 then .thrown (heap ++ [.exception]) heap.length else .done heap (.int (a / b) :: st)
  | _ => .stuck

def element (heap : Heap) : List (Word Nat) → Outcome Heap Nat
  | .int i :: .object a :: st =>
    match heap[a]? with
    | some (.aside (.array elements)) =>
      match elements[i.toNatClampNeg]? with
      | some v => .done heap (v :: st)
      | none => .stuck
    | _ => .stuck
  | _ => .stuck

def fill (heap : Heap) : List (Word Nat) → Outcome Heap Nat
  | v :: .int i :: .object a :: st =>
    match heap[a]? with
    | some (.aside (.array elements)) =>
      .done (heap.set a (.aside (.array (elements.set i.toNatClampNeg v)))) st
    | _ => .stuck
  | _ => .stuck

def newArray (heap : Heap) : List (Word Nat) → Outcome Heap Nat
  | .int n :: st => allocate heap (.aside (.array (List.replicate n.toNatClampNeg .null))) st
  | _ => .stuck

def cast (c : String) (heap : Heap) : List (Word Nat) → Outcome Heap Nat
  | .null :: st => .done heap (.null :: st)
  | .object o :: st => if isA heap o c then .done heap (.object o :: st) else .stuck
  | _ => .stuck

def state (heap : Heap) : List (Word Nat) → Outcome Heap Nat
  | .object r :: st =>
    match heap[r]? with
    | some (.aside .verdict) => .done heap (.int Spy.stateContinue :: st)
    | _ => .stuck
  | _ => .stuck

def perform (op : Operation) (heap : Heap) (st : List (Word Nat)) : Outcome Heap Nat :=
  match op with
  | .text text => allocate heap (.text text) st
  | .simple op =>
    if op = Op.idiv then divide heap st
    else if op = Op.aaload then element heap st
    else if op = Op.aastore then fill heap st
    else .stuck
  | .type op c =>
    if op = Op.anewarray then newArray heap st
    else if op = Op.checkcast then cast c heap st
    else .stuck
  | .field op f => if op = Op.getfield && f = Spy.stateField then state heap st else .stuck
  | .method op m =>
    if op = Op.invokestatic then callStatic m heap st
    else if op = Op.invokevirtual then
      match st with
      | .object o :: st => callVirtual m o heap st
      | _ => .stuck
    else .stuck
  | _ => .stuck

/-- What methods on this machine are made of. -/
def isOwn : Operation → Bool
  | .simple op => op != Op.aaload && op != Op.aastore
  | .method op m => op == Op.invokestatic && m == absolute
  | _ => false

theorem callStatic_absolute (heap : Heap) (st : List (Word Nat)) :
    callStatic absolute heap st = match st with
      | .int n :: st => .done heap (.int (if n < 0 then -n else n) :: st)
      | _ => .stuck := by
  have hspy : (EventKind.all.find? fun k => absolute = Spy.method k) = none := by decide +kernel
  have hbox : (primitives.find? fun t => absolute = valueOf t) = none := by decide +kernel
  unfold callStatic
  simp only [hspy, hbox, if_true]

theorem thrown_isA {op : Operation} {heap heap1 : Heap} {st : List (Word Nat)} {o : Nat}
    (h : perform op heap st = .thrown heap1 o) : isA heap1 o throwableClass = true := by
  have divided : divide heap st = .thrown heap1 o → isA heap1 o throwableClass = true := by
    intro h
    unfold divide at h
    split at h
    · split at h
      · cases h
        simp [isA]
      · cases h
    · cases h
  have allocated : ∀ (c : Cell) (st : List (Word Nat)), allocate heap c st ≠ .thrown heap1 o := by
    intro c st h
    cases h
  cases op with
  | text text => exact absurd h (allocated _ _)
  | simple op =>
    unfold perform at h
    simp only at h
    split at h
    · exact divided h
    split at h
    · unfold element at h
      repeat' split at h
      all_goals cases h
    split at h
    · unfold fill at h
      repeat' split at h
      all_goals cases h
    · cases h
  | type op c =>
    unfold perform at h
    simp only at h
    split at h
    · unfold newArray at h
      split at h <;> cases h
    split at h
    · unfold cast at h
      repeat' split at h
      all_goals cases h
    · cases h
  | field op f =>
    unfold perform at h
    simp only at h
    split at h
    · unfold state at h
      repeat' split at h
      all_goals cases h
    · cases h
  | method op m =>
    unfold perform at h
    simp only at h
    split at h
    · unfold callStatic at h
      repeat' split at h
      all_goals cases h
    split at h
    · split at h
      · unfold callVirtual at h
        repeat' split at h
        all_goals cases h
      · cases h
    · cases h
  | _ => cases h

def platform : Platform where
  World := Heap
  Object := Nat
  decEq := inferInstance
  perform := perform
  isA := isA
  thrown_isA := thrown_isA

/-! ## Reports -/

/-- The second heap holds the paired objects of the first, as they are, and apart from them what reports
keep. -/
structure Beside (heap heap' : Heap) (ρ : Nat → Nat → Prop) (xs : List (Nat × Aside Nat)) : Prop where
  same : ∀ a a', ρ a a' → ∃ c, heap[a]? = some c ∧ heap'[a']? = some c
  paired : ∀ {a a' b b'}, ρ a a' → ρ b b' → (a = b ↔ a' = b')
  nodup : (xs.map (·.1)).Nodup
  stored : ∀ x ∈ xs, heap'[x.1]? = some (.aside x.2)
  apart : ∀ x ∈ xs, ∀ a, ¬ ρ a x.1
  short : ∀ o elements, (o, .array elements) ∈ xs → elements.length < 65536

namespace Beside

variable {heap heap' : Heap} {ρ : Nat → Nat → Prop} {xs : List (Nat × Aside Nat)}

theorem getElem?_grown {heap : Heap} {a : Nat} {c c' : Cell} (h : heap[a]? = some c) :
    (heap ++ [c'])[a]? = some c := by
  rw [List.getElem?_append_left (List.getElem?_eq_some_iff.1 h).1, h]

theorem forget (h : Beside heap heap' ρ xs) : Beside heap heap' ρ [] :=
  ⟨h.same, h.paired, .nil, nofun, nofun, nofun⟩

/-- One object more. -/
theorem grow (h : Beside heap heap' ρ xs) (c : Cell) : Beside heap (heap' ++ [c]) ρ xs := by
  refine ⟨fun a a' ha => ?_, h.paired, h.nodup, fun x hx => getElem?_grown (h.stored x hx), h.apart,
    h.short⟩
  obtain ⟨c1, h1, h2⟩ := h.same a a' ha
  exact ⟨c1, h1, getElem?_grown h2⟩

/-- One object more that reports keep. -/
theorem keep (h : Beside heap heap' ρ xs) {a : Aside Nat}
    (hshort : ∀ elements, a = .array elements → elements.length < 65536) :
    Beside heap (heap' ++ [.aside a]) ρ ((heap'.length, a) :: xs) := by
  have hgrown := h.grow (.aside a)
  have hnew : ∀ x ∈ xs, x.1 < heap'.length := fun x hx => (List.getElem?_eq_some_iff.1 (h.stored x hx)).1
  refine ⟨hgrown.same, h.paired, ?_, fun x hx => ?_, fun x hx b hb => ?_, fun o elements hx => ?_⟩
  · rw [List.map_cons, List.nodup_cons]
    refine ⟨fun hmem => ?_, h.nodup⟩
    obtain ⟨x, hx, he⟩ := List.mem_map.1 hmem
    have := hnew x hx
    omega
  · rcases List.mem_cons.1 hx with rfl | hx
    · exact List.getElem?_concat_length
    · exact hgrown.stored x hx
  · rcases List.mem_cons.1 hx with rfl | hx
    · obtain ⟨c, -, hc⟩ := h.same b _ hb
      have := (List.getElem?_eq_some_iff.1 hc).1
      simp only at this
      omega
    · exact h.apart x hx b hb
  · rcases List.mem_cons.1 hx with he | hx
    · cases he
      exact hshort elements rfl
    · exact h.short o elements hx

/-- One object more of the method. -/
theorem pair (h : Beside heap heap' ρ []) (c : Cell) : Beside (heap ++ [c]) (heap' ++ [c])
    (fun a a' => ρ a a' ∨ (a = heap.length ∧ a' = heap'.length)) [] := by
  have below : ∀ a a', ρ a a' → a < heap.length ∧ a' < heap'.length := by
    intro a a' ha
    obtain ⟨c, h1, h2⟩ := h.same a a' ha
    exact ⟨(List.getElem?_eq_some_iff.1 h1).1, (List.getElem?_eq_some_iff.1 h2).1⟩
  refine ⟨fun a a' ha => ?_, fun {a a' b b'} ha hb => ?_, .nil, nofun, nofun, nofun⟩
  · rcases ha with ha | ⟨rfl, rfl⟩
    · obtain ⟨c1, h1, h2⟩ := h.same a a' ha
      exact ⟨c1, getElem?_grown h1, getElem?_grown h2⟩
    · exact ⟨c, List.getElem?_concat_length, List.getElem?_concat_length⟩
  · rcases ha with ha | ⟨rfl, rfl⟩
    · rcases hb with hb | ⟨rfl, rfl⟩
      · exact h.paired ha hb
      · have := below _ _ ha
        omega
    · rcases hb with hb | ⟨rfl, rfl⟩
      · have := below _ _ hb
        omega
      · simp only

/-- Another element in an array that reports keep. -/
theorem set {ys : List (Nat × Aside Nat)} {a : Nat} {elements : List (Word Nat)} (i : Nat)
    (v : Word Nat) (h : Beside heap heap' ρ (xs ++ (a, .array elements) :: ys)) :
    Beside heap (heap'.set a (.aside (.array (elements.set i v)))) ρ
      (xs ++ (a, .array (elements.set i v)) :: ys) := by
  have hmem : (a, Aside.array elements) ∈ xs ++ (a, .array elements) :: ys := by simp
  have hlt := (List.getElem?_eq_some_iff.1 (h.stored _ hmem)).1
  have hkeys : (xs ++ (a, Aside.array (elements.set i v)) :: ys).map (·.1) =
      (xs ++ (a, Aside.array elements) :: ys).map (·.1) := by simp
  have hother : ∀ x, x ∈ xs ∨ x ∈ ys → x.1 ≠ a := by
    have hnodup := h.nodup
    rw [List.map_append, List.map_cons, List.nodup_append, List.nodup_cons] at hnodup
    obtain ⟨-, ⟨hys, -⟩, hxs⟩ := hnodup
    rintro x (hx | hx)
    · exact hxs _ (List.mem_map_of_mem hx) _ (List.mem_cons_self ..)
    · rintro rfl
      exact hys (List.mem_map.2 ⟨x, hx, rfl⟩)
  have cases_mem : ∀ {y : Aside Nat} {x : Nat × Aside Nat}, x ∈ xs ++ (a, y) :: ys →
      x = (a, y) ∨ ((x ∈ xs ∨ x ∈ ys) ∧ x ∈ xs ++ (a, Aside.array elements) :: ys) := by
    intro y x hx
    rcases List.mem_append.1 hx with hx | hx
    · exact .inr ⟨.inl hx, List.mem_append_left _ hx⟩
    · rcases List.mem_cons.1 hx with hx | hx
      · exact .inl hx
      · exact .inr ⟨.inr hx, List.mem_append_right _ (List.mem_cons_of_mem _ hx)⟩
  refine ⟨fun b b' hb => ?_, h.paired, by rw [hkeys]; exact h.nodup, fun x hx => ?_, fun x hx b => ?_,
    fun o es hx => ?_⟩
  · have hne : a ≠ b' := by
      rintro rfl
      exact h.apart _ hmem b hb
    rw [List.getElem?_set_ne hne]
    exact h.same b b' hb
  · rcases cases_mem hx with rfl | ⟨hx', hx⟩
    · exact List.getElem?_set_self hlt
    · rw [List.getElem?_set_ne (hother x hx').symm]
      exact h.stored x hx
  · rcases cases_mem hx with rfl | ⟨-, hx⟩
    · exact h.apart _ hmem b
    · exact h.apart x hx b
  · rcases cases_mem hx with he | ⟨-, hx⟩
    · cases he
      rw [List.length_set]
      exact h.short a elements hmem
    · exact h.short o es hx

theorem isA_eq (h : Beside heap heap' ρ xs) {o o' : Nat} (ho : ρ o o') (c : String) :
    isA heap o c = isA heap' o' c := by
  obtain ⟨cell, h1, h2⟩ := h.same o o' ho
  unfold isA
  rw [h1, h2]

end Beside

/-- What methods do on this machine, beside further objects. -/
theorem own_follows {op : Operation} (hop : isOwn op = true) (heap heap' : Heap)
    {ρ : Nat → Nat → Prop} {st st' : List (Word Nat)} (hs : List.Forall₂ (Word.Alike ρ) st st') :
    (∃ st1 st1', perform op heap st = .done heap st1 ∧ perform op heap' st' = .done heap' st1' ∧
      List.Forall₂ (Word.Alike ρ) st1 st1') ∨
    (perform op heap st = .thrown (heap ++ [.exception]) heap.length ∧
      perform op heap' st' = .thrown (heap' ++ [.exception]) heap'.length) ∨
    perform op heap st = .stuck := by
  cases op with
  | simple op =>
    unfold isOwn at hop
    simp only [Bool.and_eq_true, bne_iff_ne, ne_eq] at hop
    by_cases hdiv : op = Op.idiv
    · simp only [perform, hdiv, if_true]
      rcases hs with _ | ⟨ha, _ | ⟨hb, hs⟩⟩
      · exact .inr (.inr rfl)
      · cases ha <;> exact .inr (.inr rfl)
      · cases ha with
        | int b =>
          cases hb with
          | int a =>
            by_cases hzero : b = 0
            · simp only [divide, hzero, if_true]
              exact .inr (.inl ⟨trivial, trivial⟩)
            · simp only [divide, hzero, if_false]
              exact .inl ⟨_, _, rfl, rfl, .cons (.int _) hs⟩
          | _ => exact .inr (.inr rfl)
        | _ => exact .inr (.inr rfl)
    · simp only [perform, hdiv, hop.1, hop.2, if_false]
      exact .inr (.inr trivial)
  | method op m =>
    unfold isOwn at hop
    simp only [Bool.and_eq_true, beq_iff_eq] at hop
    obtain ⟨rfl, rfl⟩ := hop
    simp only [perform, if_true, callStatic_absolute]
    cases hs with
    | nil => exact .inr (.inr rfl)
    | cons hv hs =>
      cases hv with
      | int n => exact .inl ⟨_, _, rfl, rfl, .cons (.int _) hs⟩
      | _ => exact .inr (.inr rfl)
  | _ => cases hop

theorem toNatClampNeg_ofNat {n : Nat} (h : n < 65536) : (Int32.ofNat n).toNatClampNeg = n := by
  rw [← Int32.toNat_toInt, Int32.toInt_ofNat_of_lt (by omega)]
  rfl

/-- What the wrapper of a type is asked for. -/
theorem unwrapping_spec {t : JavaType} {owner name descriptor : String}
    (h : t.unboxing = JavaType.unwrapping owner name descriptor) :
    (some owner = t.boxClass ∨ owner = numberClass) ∧
      (⟨owner, name, descriptor⟩ : MemberRef) ≠ getClass ∧
      (⟨owner, name, descriptor⟩ : MemberRef) ≠ getName := by
  have reference : ∀ c : String, (if c = objectClass then [] else [Template.type Op.checkcast c]) ≠
      JavaType.unwrapping owner name descriptor := by
    intro c h
    split at h <;> cases h
  cases t with
  | void => cases h
  | object c => exact absurd h (reference c)
  | array c => exact absurd h (reference _)
  | _ =>
    cases h
    exact ⟨by decide, by decide, by decide⟩

theorem valueOf_spec {t : JavaType} {wrapper : String} (h : t.boxClass = some wrapper) :
    (EventKind.all.find? fun k => valueOf t = Spy.method k) = none ∧
      (primitives.find? fun u => valueOf t = valueOf u) = some t ∧
      valueOf t = ⟨wrapper, "valueOf", "(" ++ t.descriptor ++ ")L" ++ wrapper ++ ";"⟩ := by
  cases t with
  | void => cases h
  | object c => cases h
  | array c => cases h
  | _ =>
    cases h
    exact ⟨by decide +kernel, by decide +kernel, rfl⟩

theorem find_method (k : EventKind) :
    (EventKind.all.find? fun k' => Spy.method k = Spy.method k') = some k := by
  cases k <;> decide +kernel

theorem length_of_fits {t : JavaType} {value : List (Word Nat)} {wrapper : String}
    (ht : t.boxClass = some wrapper) (h : Word.Fits t value) : value.length = t.slots := by
  have reference : t.isReference = true → t.boxClass = none := by
    intro h
    cases t <;> first | rfl | cases h
  cases h with
  | null h =>
    rw [reference h] at ht
    cases ht
  | object o h =>
    rw [reference h] at ht
    cases ht
  | _ => rfl

section Reports

variable {heap heap' : Heap} {ρ : Nat → Nat → Prop} {xs : List (Nat × Aside Nat)}

theorem perform_valueOf {t : JavaType} {wrapper : String} {value : List (Word Nat)}
    (ht : t.boxClass = some wrapper) (hfits : Word.Fits t value) (st : List (Word Nat)) :
    perform (.method Op.invokestatic
        ⟨wrapper, "valueOf", "(" ++ t.descriptor ++ ")L" ++ wrapper ++ ";"⟩) heap (value ++ st) =
      allocate heap (.aside (.box t value)) st := by
  obtain ⟨hspy, hbox, hvalueOf⟩ := valueOf_spec ht
  have hlen := length_of_fits ht hfits
  rw [← hvalueOf]
  change callStatic (valueOf t) heap (value ++ st) = _
  unfold callStatic
  simp only [hspy, hbox, ← hlen, List.take_left, List.drop_left]

theorem isA_of_box {o : Nat} {t : JavaType} {value : List (Word Nat)} {owner name descriptor : String}
    (ho : heap[o]? = some (.aside (.box t value)))
    (ht : t.unboxing = JavaType.unwrapping owner name descriptor) : isA heap o owner = true := by
  obtain ⟨howner, -⟩ := unwrapping_spec ht
  unfold isA
  simp only [ho]
  rcases howner with h | h
  · simp [h]
  · simp [h]

theorem perform_unboxing {o : Nat} {t : JavaType} {value : List (Word Nat)} {owner name : String}
    {descriptor : String} (ho : heap[o]? = some (.aside (.box t value)))
    (ht : t.unboxing = JavaType.unwrapping owner name descriptor) (st : List (Word Nat)) :
    perform (.type Op.checkcast owner) heap (.object o :: st) = .done heap (.object o :: st) ∧
      perform (.method Op.invokevirtual ⟨owner, name, descriptor⟩) heap (.object o :: st) =
        .done heap (value ++ st) := by
  obtain ⟨-, hclass, hname⟩ := unwrapping_spec ht
  constructor
  · exact if_pos (isA_of_box ho ht)
  · change callVirtual ⟨owner, name, descriptor⟩ o heap st = _
    unfold callVirtual
    rw [if_neg hclass, if_neg hname, ho]
    exact if_pos ht

theorem perform_checkcast {v : Word Nat} {c : String}
    (hv : v = .null ∨ ∃ o, v = .object o ∧ isA heap o c = true) (st : List (Word Nat)) :
    perform (.type Op.checkcast c) heap (v :: st) = .done heap (v :: st) := by
  rcases hv with rfl | ⟨o, rfl, ho⟩
  · rfl
  · exact if_pos ho

theorem perform_anewarray {n : Nat} (hn : n < 65536) (st : List (Word Nat)) :
    perform (.type Op.anewarray objectClass) heap (.int (Int32.ofNat n) :: st) =
      allocate heap (.aside (.array (List.replicate n .null))) st := by
  change allocate heap (.aside (.array (List.replicate (Int32.ofNat n).toNatClampNeg .null))) st = _
  rw [toNatClampNeg_ofNat hn]

theorem perform_aastore {a i : Nat} {elements : List (Word Nat)} (v : Word Nat)
    (ha : heap[a]? = some (.aside (.array elements))) (hi : i < 65536) (st : List (Word Nat)) :
    perform (.simple Op.aastore) heap (v :: .int (Int32.ofNat i) :: .object a :: st) =
      .done (heap.set a (.aside (.array (elements.set i v)))) st := by
  change fill heap (v :: .int (Int32.ofNat i) :: .object a :: st) = _
  simp only [fill, ha, toNatClampNeg_ofNat hi]

theorem perform_aaload {a i : Nat} {elements : List (Word Nat)} {v : Word Nat}
    (ha : heap[a]? = some (.aside (.array elements))) (hv : elements[i]? = some v) (hi : i < 65536)
    (st : List (Word Nat)) :
    perform (.simple Op.aaload) heap (.int (Int32.ofNat i) :: .object a :: st) =
      .done heap (v :: st) := by
  change element heap (.int (Int32.ofNat i) :: .object a :: st) = _
  simp only [element, ha, toNatClampNeg_ofNat hi, hv]

theorem perform_report (k : EventKind) {operands : List (Word Nat)}
    (hlen : operands.length = (Spy.parameterTypes k).length) (st : List (Word Nat)) :
    perform (.method Op.invokestatic (Spy.method k)) heap (operands ++ st) =
      allocate heap (.aside .verdict) st := by
  change callStatic (Spy.method k) heap (operands ++ st) = _
  unfold callStatic
  simp only [find_method, ← hlen, List.drop_left]

theorem perform_state {r : Nat} (hr : heap[r]? = some (.aside .verdict)) (st : List (Word Nat)) :
    perform (.field Op.getfield Spy.stateField) heap (.object r :: st) =
      .done heap (.int Spy.stateContinue :: st) := by
  change state heap (.object r :: st) = _
  simp only [state, hr]

end Reports

/-- Reports make no difference on the machine. -/
def neutral : platform.Neutral (fun op => isOwn op = true) where
  Beside := Beside
  forget h := h.forget
  paired h := h.paired
  isA h ho c := h.isA_eq ho c
  done := by
    intro w w' ρ op st st' w1 st1 hop hb hs hperform
    rcases own_follows hop w w' hs with ⟨t, t', h, h', ht⟩ | ⟨h, -⟩ | h
    · cases h.symm.trans hperform
      exact ⟨w', t', ρ, h', fun _ _ ho => ho, hb, ht⟩
    · cases h.symm.trans hperform
    · cases h.symm.trans hperform
  thrown := by
    intro w w' ρ op st st' w1 o hop hb hs hperform
    rcases own_follows hop w w' hs with ⟨t, t', h, -⟩ | ⟨h, h'⟩ | h
    · cases h.symm.trans hperform
    · cases h.symm.trans hperform
      exact ⟨_, _, _, h', fun _ _ ho => .inl ho, hb.pair _, .inr ⟨rfl, rfl⟩⟩
    · cases h.symm.trans hperform
  text _ _ h := ⟨_, _, rfl, h.grow _⟩
  box st h ht hfits := ⟨_, _, perform_valueOf ht hfits st, h.keep nofun⟩
  unbox st h hx ht _ := ⟨_, (perform_unboxing (h.stored _ hx) ht st).2, h⟩
  castBox st h hx ht := ⟨_, (perform_unboxing (h.stored _ hx) ht st).1, h⟩
  cast st h hv := ⟨_, perform_checkcast hv st, h⟩
  array st h hn := ⟨_, _, perform_anewarray hn st, h.keep fun _ he => by
    cases he
    rwa [List.length_replicate]⟩
  fill {_ _ _ xs ys a elements _ _} st h hi := by
    have hmem : (a, Aside.array elements) ∈ xs ++ (a, .array elements) :: ys :=
      List.mem_append_right _ (List.mem_cons_self ..)
    exact ⟨_, perform_aastore _ (h.stored _ hmem) (Nat.lt_trans hi (h.short _ _ hmem)) st, h.set _ _⟩
  element st h ha hi := by
    have hlt := (List.getElem?_eq_some_iff.1 hi).1
    exact ⟨_, perform_aaload (h.stored _ ha) hi (Nat.lt_trans hlt (h.short _ _ ha)) st, h⟩
  report k _ st h hlen := ⟨_, _, perform_report k hlen st, h.keep nofun⟩
  state st h hr := ⟨_, perform_state (h.stored _ hr) st, h⟩
  getClass _ h _ := ⟨_, _, rfl, h.keep nofun⟩
  getName _ h _ := ⟨_, _, rfl, h.grow _⟩

end Machine

end Interpose
