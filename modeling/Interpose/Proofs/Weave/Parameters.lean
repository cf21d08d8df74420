import Interpose.Proofs.Execution.Heap
import Interpose.Proofs.Weave.Inferred
/-!
# Parameters behind the report of the start

What is emitted for the start of a method (`WeaveSite.before_passes_arguments`): run anywhere, it hands the
parameters to a dispatch in an array and takes them from there again (`WeaveSite.HandsOver`), and in any
body where its labels are its own, the inference finds the parameters behind it with the types that the
method starts with.

On a machine with a listener that turns every array around, parameters whose types read the same backwards
are turned around (`Machine.turning_turns`).
-/

namespace Interpose

/-- Labels are where they are placed. -/
theorem Template.mem_of_settleAll {q : Pool} {ts : List Template} {code : List Insn} {l : Label}
    (hs : SettleAll q ts code) : .label l ∈ code ↔ .place l ∈ ts := by
  constructor
  · intro hl
    obtain ⟨x, hx, hsettles⟩ := (mem_forall₂ hs).2 _ hl
    cases hsettles
    exact hx
  · intro hl
    obtain ⟨i, hi, hsettles⟩ := (mem_forall₂ hs).1 _ hl
    cases hsettles
    exact hi

namespace WeaveSite

open Analysis Template Platform

variable (s : WeaveSite) {p : Pool} {given : Body} {e : Emission}

/-- The report of the start of a method with any parameters, of which the slots can be numbered. Its array
is kept in a local variable behind those of the method. Run on any platform and above any stack, in any
body that it stands in, it hands over the parameters, whatever values there are in their slots. Behind it,
if its labels and the one behind it are its own there, the inference knows the parameters by the types of
the initial frame. -/
theorem before_passes_arguments (hp : p.Sound)
    (hslots : s.context.receiverSlots + s.context.descriptor.parameterSlots ≤ 0xFFFF)
    (hvoid : ∀ t ∈ s.context.descriptor.parameters, t ≠ .void)
    (hlocal : e.nextLocal = Weave.firstFree s.context given) :
    Ends p (s.before.run e) (fun x q => p.Grows q ∧ ∃ block : List Insn,
        x.2.insns = e.insns ++ block.toArray ∧
        (∀ l, .label l ∈ block → l = e.nextLabel ∨ l = e.nextLabel + 1) ∧
        given.maxLocals.toNat ≤ e.nextLocal.toNat ∧
        s.context.receiverSlots + s.context.descriptor.parameterSlots ≤ e.nextLocal.toNat ∧
        (∀ q' b before after, q.Within q' → Spliced b before block after →
          ∀ (P : Platform) (B : P.Boxing) w τ ν,
            (∀ i t, s.context.descriptor.parameters[i]? = some t →
              Word.Fits t (Stage.slotsOf t ν (s.context.slotOf i))) →
            ∃ i w1 operands a, s.HandsOver B e.nextLocal q' b before.length
              (before.length + block.length) ⟨w, τ, ν⟩ i w1 operands a) ∧
        ∀ q' b before after behind, q.Within q' → .label behind ∉ block →
          Spliced b before (block ++ [.label behind]) after →
          b.Apart before (block ++ [.label behind]) after →
          ∀ h a f, analyze b s.context q' h = .ok a →
            a.frame (before.length + block.length) = some f →
            ∀ k, s.context.receiverSlots ≤ k →
              k < s.context.receiverSlots + s.context.descriptor.parameterSlots →
              f.locals[k]? = (initialFrame s.context).locals[k]?)
      FormatError.IsSize := by
  obtain ⟨hmax, hfree⟩ := Weave.le_firstFree s.context given
  rw [Weave.argumentSlots_of_le hslots] at hfree
  have hroom : s.context.receiverSlots + s.context.descriptor.parameterSlots ≤ e.nextLocal.toNat := by
    rw [hlocal]
    omega
  refine (s.emits_before (fun _ h => h) hp).imp fun x q => ?_
  rintro ⟨hgrows, hgains, -⟩
  obtain ⟨block, hinsns, hs⟩ := hgains.insns
  have hlabels : freshLabels 0 (s.startReport e.nextLocal e.nextLabel) = [e.nextLabel, e.nextLabel + 1] :=
    s.freshLabels_startReport (Nat.zero_le _) _
  have hn : (freshLabels 0 (s.startReport e.nextLocal e.nextLabel)).Nodup := by
    rw [hlabels]
    simp
  have hlen := hs.length_eq
  refine ⟨hgrows, block, ?_, fun l hl => ?_, by rwa [hlocal], hroom, ?_, ?_⟩
  · rw [← Array.toList_inj, hinsns, Array.toList_append]
  · have := mem_freshLabels.2 ⟨Nat.zero_le l, (mem_of_settleAll hs).1 hl⟩
    rw [hlabels] at this
    simpa using this
  · intro q' b before after hq hb P B w τ ν hfits
    have hstands := Stands.of_spliced hb (hs.imp fun _ _ h => h.within hq) hn
    rw [← hlen]
    exact startReport_handsOver B hroom hfits hstands
  · intro q' b before after behind hq hbehind hb hapart h a f ha hf k hlo hhi
    obtain ⟨lead, hlead, hproves⟩ := s.startReport_proves e.nextLocal e.nextLabel hvoid hroom
      fun hmem => hbehind ((mem_of_settleAll hs).2 hmem)
    exact (frame_behind hb hapart (hs.imp fun _ _ h => h.within hq) ha Fact.restored_ofLocals hlead
      hproves hf).2 k hlo hhi

end WeaveSite

/-! ## A listener that turns arguments around -/

namespace Machine

/-- The report of a start, answered by turning the array of the arguments around. -/
def turn (heap : Heap) (st : List (Word Nat)) : Outcome Heap Nat :=
  match st.drop 7 with
  | .object a :: st =>
    match heap[a]? with
    | some (.aside (.array elements)) =>
      allocate (heap.set a (.aside (.array elements.reverse))) (.aside .verdict) st
    | _ => .stuck
  | _ => .stuck

def value (heap : Heap) : List (Word Nat) → Outcome Heap Nat
  | .object _ :: st => .done heap (.null :: st)
  | _ => .stuck

def performTurning (op : Operation) (heap : Heap) (st : List (Word Nat)) : Outcome Heap Nat :=
  match op with
  | .method op m =>
    if op = Op.invokestatic && m = Spy.method .before then turn heap st
    else perform (.method op m) heap st
  | .field op f => if f = Spy.valueField then value heap st else perform (.field op f) heap st
  | op => perform op heap st

variable {heap heap' : Heap} {o : Nat} {c : String}

theorem performTurning_thrown_isA {op : Operation} {st : List (Word Nat)}
    (h : performTurning op heap st = .thrown heap' o) : isA heap' o throwableClass = true := by
  unfold performTurning at h
  split at h
  · split at h
    · unfold turn at h
      repeat' split at h
      all_goals cases h
    · exact thrown_isA h
  · split at h
    · unfold value at h
      split at h <;> cases h
    · exact thrown_isA h
  · exact thrown_isA h

def turning : Platform where
  World := Heap
  Object := Nat
  decEq := inferInstance
  perform := performTurning
  isA := isA
  thrown_isA := performTurning_thrown_isA

def elements (heap : Heap) (a : Nat) : Option (List (Word Nat)) :=
  match heap[a]? with
  | some (.aside (.array elements)) => some elements
  | _ => none

theorem elements_eq_some {a : Nat} {es : List (Word Nat)} :
    elements heap a = some es ↔ heap[a]? = some (.aside (.array es)) := by
  unfold elements
  split
  · simp_all
  · rename_i h
    exact ⟨nofun, fun ha => absurd ha (h es)⟩

/-- The object wraps a value. -/
def Wraps (heap : Heap) (o : Nat) (t : JavaType) (value : List (Word Nat)) : Prop :=
  heap[o]? = some (.aside (.box t value))

/-- The cells of the first heap are in the second one. -/
def Keeps (heap heap' : Heap) : Prop :=
  ∀ (o : Nat) (c : Cell), heap[o]? = some c → heap'[o]? = some c

theorem keeps_grown (c : Cell) : Keeps heap (heap ++ [c]) := fun _ _ => Beside.getElem?_grown

theorem Keeps.isA (hkeeps : Keeps heap heap') (h : isA heap o c = true) : isA heap' o c = true := by
  unfold Machine.isA at h ⊢
  cases ho : heap[o]? with
  | none => simp [ho] at h
  | some cell => simpa only [ho, hkeeps o cell ho] using h

/-- Arrays, wrappers and casts are on this machine as documented. -/
def boxing : turning.Boxing where
  elements := elements
  Wraps := Wraps
  Answers := Wraps
  Keeps := Keeps
  refl _ _ _ h := h
  trans h h' o c ho := h' o c (h o c ho)
  keeps_elements hkeeps ha := elements_eq_some.2 (hkeeps _ _ (elements_eq_some.1 ha))
  keeps_wraps hkeeps ho := hkeeps _ _ ho
  keeps_answers hkeeps ho := hkeeps _ _ ho
  keeps_isA hkeeps ho := hkeeps.isA ho
  text _ _ _ := ⟨_, _, rfl, keeps_grown _⟩
  newArray _ st hn := ⟨_, _, perform_anewarray hn st, keeps_grown _,
    elements_eq_some.2 List.getElem?_concat_length⟩
  fill {w a es i v} st ha hlen hi _ := by
    have ha := elements_eq_some.1 ha
    have hlt := (List.getElem?_eq_some_iff.1 ha).1
    refine ⟨_, perform_aastore v ha hi st, elements_eq_some.2 (List.getElem?_set_self hlt),
      fun o t value ho => ?_⟩
    have hne : a ≠ o := by
      rintro rfl
      cases ha.symm.trans ho
    exact (List.getElem?_set_ne hne).trans ho
  element st ha hv hi := ⟨_, perform_aaload (elements_eq_some.1 ha) hv hi st, fun _ _ h => h⟩
  box {t wrapper value} w st ht hfits := by
    have hother : (⟨wrapper, "valueOf", "(" ++ t.descriptor ++ ")L" ++ wrapper ++ ";"⟩ : MemberRef) ≠
        Spy.method .before :=
      fun h => absurd (congrArg MemberRef.name h) (show "valueOf" ≠ (Spy.method .before).name by decide)
    exact ⟨_, _, (if_neg (by simp [hother])).trans (perform_valueOf ht hfits st), keeps_grown _,
      List.getElem?_concat_length⟩
  cast st hv := ⟨_, perform_checkcast hv st, fun _ _ h => h⟩
  isA_of_answers ht ho := isA_of_box ho ht
  ask st ht ho := ⟨_, (perform_unboxing ho ht st).2, fun _ _ h => h⟩

theorem perform_turning {operands : List (Word Nat)} {a : Nat} {es : List (Word Nat)}
    (hcount : operands.length = (Spy.parameterTypes .before).length)
    (hfirst : operands.getLast? = some (.object a)) (ha : heap[a]? = some (.aside (.array es)))
    (st : List (Word Nat)) :
    performTurning (.method Op.invokestatic (Spy.method .before)) heap (operands ++ st) =
      allocate (heap.set a (.aside (.array es.reverse))) (.aside .verdict) st := by
  obtain ⟨others, rfl⟩ := List.getLast?_eq_some_iff.1 hfirst
  have hothers : others.length = 7 := by simpa [Spy.parameterTypes] using hcount
  have hdrop : (others ++ [Word.object a] ++ st).drop 7 = .object a :: st := by
    rw [List.append_assoc, ← hothers, List.drop_left]
    rfl
  simp only [performTurning, decide_true, Bool.and_self, if_true, turn, hdrop, ha]

theorem turning_isVerdict {r : Nat} (hr : heap[r]? = some (.aside .verdict)) :
    turning.IsVerdict heap r Spy.stateContinue .null :=
  ⟨fun rest => perform_state hr rest, fun _ => rfl⟩

open Platform Stage in
/-- Where the types of the parameters read the same backwards and are primitive, the listener turns the
parameters around. -/
theorem turning_turns {s : WeaveSite} {arguments : UInt16} {q : Pool} {b : Body} {lo hi i : Nat}
    {u : turning.Store} {operands : List (Word Nat)} {a : Nat}
    (h : s.HandsOver boxing arguments q b lo hi u i heap operands a)
    (hsame : s.context.descriptor.parameters.reverse = s.context.descriptor.parameters)
    (hprimitive : ∀ t ∈ s.context.descriptor.parameters, t.isReference = false)
    (hfits : ∀ i t, s.context.descriptor.parameters[i]? = some t →
      Word.Fits t (slotsOf t u.locals (s.context.slotOf i))) :
    ∃ heap' ν, turning.Leads q b lo hi (.running lo u) (.running hi ⟨heap', u.stack, ν⟩) ∧
      (∀ i t, s.context.descriptor.parameters[i]? = some t → slotsOf t ν (s.context.slotOf i) =
        slotsOf t u.locals (s.context.slotOf (s.context.descriptor.parameters.length - 1 - i))) ∧
      ∀ x, x ≠ arguments.toNat → (x < s.context.receiverSlots ∨
        s.context.receiverSlots + s.context.descriptor.parameterSlots ≤ x) → ν x = u.locals x := by
  obtain ⟨es, hes, hlength, hboxed⟩ := h.passed.boxed
  have ha : heap[a]? = some (.aside (.array es)) := elements_eq_some.1 hes
  let turned : Heap := heap.set a (.aside (.array es.reverse))
  let answered : Heap := turned ++ [.aside .verdict]
  have hlt := (List.getElem?_eq_some_iff.1 ha).1
  have hturned : turned[a]? = some (.aside (.array es.reverse)) := List.getElem?_set_self hlt
  let value : JavaType → Nat → List (Word Nat) := fun t i =>
    slotsOf t u.locals (s.context.slotOf (s.context.descriptor.parameters.length - 1 - i))
  obtain ⟨heap', ν, hleads, hvalues, hother⟩ := h.writesBack answered turned.length .null
    es.reverse (fun i => value (s.context.descriptor.parameters[i]?.getD .void) i)
    (perform_turning h.passed.count h.passed.first ha u.stack)
    (turning_isVerdict List.getElem?_concat_length)
    (elements_eq_some.2 (Beside.getElem?_grown hturned)) fun i t ht => by
      have hi := (List.getElem?_eq_some_iff.1 ht).1
      have hback : s.context.descriptor.parameters[s.context.descriptor.parameters.length - 1 - i]? =
          some t := by
        rw [← List.getElem?_reverse hi, hsame, ht]
      obtain ⟨v, hv, hbox⟩ := hboxed _ t hback
      refine ⟨v, by rwa [List.getElem?_reverse (by omega), hlength], ?_⟩
      rw [ht]
      have hprim := hprimitive t (List.mem_of_getElem? ht)
      cases hbox with
      | reference hreference => exact absurd (hreference.symm.trans hprim) (by decide)
      | @primitive o _ ho =>
        have ho : Wraps heap o t (value t i) := ho
        have hne : a ≠ o := by
          rintro rfl
          cases ha.symm.trans ho
        refine .primitive hprim (hfits _ t hback) ?_
        exact Beside.getElem?_grown ((List.getElem?_set_ne hne).trans ho)
  refine ⟨heap', ν, hleads, fun i t ht => ?_, hother⟩
  rw [hvalues i t ht, ht]
  rfl

def ofThreeNumbers : MethodContext :=
  ⟨"demo/Sample", 0, "mix", ⟨[.int, .long, .int], .void⟩⟩

def mixReported : WeaveSite where
  plan := { space := "default", listener := 1, loader := 1, kinds := .ofList [.before],
            className := "demo.Sample" }
  context := ofThreeNumbers

def oneSevenTwo : turning.Store where
  world := [.exception]
  stack := [.float 3]
  locals
    | 0 => .object (0 : Nat)
    | 1 => .int 1
    | 2 => .long 7
    | 3 => .second
    | _ => .int 2

theorem oneSevenTwo_fits (i : Nat) (t : JavaType) (ht : ofThreeNumbers.descriptor.parameters[i]? = some t) :
    Word.Fits t (Stage.slotsOf t oneSevenTwo.locals (ofThreeNumbers.slotOf i)) := by
  match i, ht with
  | 0, rfl => exact .int 1
  | 1, rfl => exact .long 7
  | 2, rfl => exact .int 2

def beginning (block : List Insn) : Body where
  insns := block ++ [.label 2, .simple Op.returnVoid]
  maxLocals := 6

abbrev Emitted : Type := Except FormatError (Unit × Emission) × Pool

open Analysis in
/-- Whether the report is emitted and the inference of a body that begins with it finds a frame behind it. -/
def inferred : Emitted → Bool
  | (.ok x, q) => (analyze (beginning x.2.insns.toList) ofThreeNumbers q .flat).toOption.any
      fun a => (a.frame x.2.insns.toList.length).isSome
  | _ => false

theorem exists_of_inferred {e : Emitted} (h : inferred e = true) : ∃ x q a f, e = (.ok x, q) ∧
    analyze (beginning x.2.insns.toList) ofThreeNumbers q .flat = .ok a ∧
    a.frame x.2.insns.toList.length = some f := by
  obtain ⟨result, q⟩ := e
  cases result with
  | error _ => cases h
  | ok x =>
    obtain ⟨a, ha, hframe⟩ := any_toOption.1 h
    obtain ⟨f, hf⟩ := Option.isSome_iff_exists.1 hframe
    exact ⟨x, q, a, f, rfl, ha, hf⟩

open Analysis in
/-- A listener that turns the array around turns the parameters around. -/
theorem before_passes_arguments_turned : ∃ (q : Pool) (x : Unit × Emission) (block : List Insn),
    (mixReported.before.run ⟨#[], 0, 5, 5, []⟩).run.run Pool.empty = (.ok x, q) ∧
    x.2.insns = block.toArray ∧
    (∃ heap ν, turning.Leads q (beginning block) 0 block.length (.running 0 oneSevenTwo)
        (.running block.length ⟨heap, [.float 3], ν⟩) ∧
      (List.range 5).map ν = [.object (0 : Nat), .int 2, .long 7, .second, .int 1]) ∧
    ∃ a f, analyze (beginning block) ofThreeNumbers q .flat = .ok a ∧ a.frame block.length = some f ∧
      ∀ k, 1 ≤ k → k < 5 → f.locals[k]? = (initialFrame ofThreeNumbers).locals[k]? := by
  have hinferred : inferred ((mixReported.before.run ⟨#[], 0, 5, 5, []⟩).run.run Pool.empty) = true := by
    decide +kernel
  -- from here on the site must not be evaluated
  obtain ⟨s, hs⟩ : ∃ s, s = mixReported := ⟨_, rfl⟩
  have hslots : s.context.receiverSlots + s.context.descriptor.parameterSlots ≤ 0xFFFF := by
    rw [hs]
    decide +kernel
  have hvoid : ∀ t ∈ s.context.descriptor.parameters, t ≠ .void := by
    rw [hs]
    decide +kernel
  have hlocal : (5 : UInt16) = Weave.firstFree s.context { insns := [], maxLocals := 5 } := by
    rw [hs]
    decide +kernel
  have hends := s.before_passes_arguments (e := ⟨#[], 0, 5, 5, []⟩) Pool.empty_sound hslots hvoid hlocal
  rw [← hs] at hinferred ⊢
  obtain ⟨x, q, a, f, hrun, ha, hf⟩ := exists_of_inferred hinferred
  obtain ⟨-, block, hinsns, hlabels, -, -, hruns, htypes⟩ := hends.of_ok hrun
  have hblock : x.2.insns = block.toArray := hinsns.trans (Array.empty_append ..)
  rw [hblock, List.toList_toArray] at ha hf
  have hbehind : .label 2 ∉ block := fun h => absurd (hlabels 2 h) (by decide)
  have hspliced : Spliced (beginning block) [] block [.label 2, .simple Op.returnVoid] := by
    refine ⟨rfl, fun l hl h => ?_⟩
    simp only [List.mem_cons, Insn.label.injEq, reduceCtorEq, List.not_mem_nil, or_false] at h
    exact hbehind (h ▸ hl)
  subst hs
  refine ⟨q, x, block, hrun, hblock, ?_, a, f, ha, hf, fun k hlo hhi => ?_⟩
  · obtain ⟨i, heap, operands, o, hands⟩ := hruns q (beginning block) _ _ (.refl q) hspliced turning
      boxing oneSevenTwo.world oneSevenTwo.stack oneSevenTwo.locals oneSevenTwo_fits
    obtain ⟨heap', ν, hleads, hvalues, hother⟩ := turning_turns hands rfl (by decide) oneSevenTwo_fits
    rw [List.length_nil, Nat.zero_add] at hleads
    have hthis : ν 0 = .object (0 : Nat) := hother 0 (by decide) (.inl (by decide))
    have hfirst : [ν 1] = [.int 2] := hvalues 0 _ rfl
    have hsecond : [ν 3, ν 2] = [.second, .long 7] := hvalues 1 _ rfl
    have hthird : [ν 4] = [.int 1] := hvalues 2 _ rfl
    refine ⟨heap', ν, hleads, ?_⟩
    show [ν 0, ν 1, ν 2, ν 3, ν 4] = _
    simp only [List.cons.injEq, and_true] at hfirst hsecond hthird
    rw [hthis, hfirst, hsecond.2, hsecond.1, hthird]
  · have hclosed : Spliced (beginning block) [] (block ++ [.label 2]) [.simple Op.returnVoid] :=
      ⟨(List.append_assoc block [_] [_]).symm, fun l _ h => Insn.noConfusion (List.mem_singleton.1 h)⟩
    have hapart : (beginning block).Apart [] (block ++ [.label 2]) [.simple Op.returnVoid] := by
      refine ⟨fun insn hinsn l hl => ?_, List.forall_mem_nil _, List.forall_mem_nil _⟩
      rw [List.mem_singleton.1 hinsn] at hl
      cases hl
    have hsame := htypes q (beginning block) [] _ 2 (.refl q) hbehind hclosed hapart .flat a f ha
    rw [List.length_nil, Nat.zero_add] at hsame
    have hfirst : mixReported.context.receiverSlots = 1 := rfl
    have hcount : mixReported.context.descriptor.parameterSlots = 4 := rfl
    rw [hfirst, hcount] at hsame
    exact hsame hf k hlo hhi

end Machine

end Interpose
