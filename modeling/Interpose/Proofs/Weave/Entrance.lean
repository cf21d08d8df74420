import Interpose.Proofs.Weave.Lifting
import Interpose.Proofs.Weave.Spoken
/-!
# The entry point of a woven constructor

Where a constructor calls another one, the object under construction is an operand of the call: the
entry point is behind the first call for which this holds on some path (`entryPoint_constructs`). Woven
code holds the object where the method does (`WovenFrom.comes_door`).
-/

namespace Interpose

namespace Held

/-- Both hold the object in the same places, or neither holds it. -/
def Same (w w' : Held) : Prop :=
  w' = w ∨ w.Free ∧ w'.Free

variable {w w' : Held}

theorem Same.refl (w : Held) : w.Same w := .inl rfl

theorem Same.after (h : w.Same w') (pool : Pool) (insn : Insn) :
    (w.after pool insn).Same (w'.after pool insn) := by
  rcases h with rfl | ⟨h, h'⟩
  · exact .refl _
  · exact .inr ⟨h.after pool insn, h'.after pool insn⟩

theorem Same.thrown (h : w.Same w') : w.thrown.Same w'.thrown := by
  rcases h with rfl | ⟨h, h'⟩
  · exact .refl _
  · exact .inr ⟨h.thrown, h'.thrown⟩

theorem Free.stack_ne (h : w.Free) (n : Nat) : w.stack[n]? ≠ some true := fun hn =>
  Bool.noConfusion (h.stack true (List.mem_of_getElem? hn))

/-- An operand of one that holds the object is one of the other. -/
theorem Same.stack (h : w.Same w') {n : Nat} : w.stack[n]? = some true ↔ w'.stack[n]? = some true := by
  rcases h with rfl | ⟨h, h'⟩
  · exact Iff.rfl
  · exact iff_of_false (h.stack_ne n) (h'.stack_ne n)

theorem Same.free (h : w.Same w') (hw : w.Free) : w'.Free := by
  rcases h with rfl | ⟨-, h'⟩
  · exact hw
  · exact h'

end Held

/-- Control that comes to templates comes behind them. -/
theorem Stage.comes_through (σ : Stage) {k : Nat} {ts : List Template} (h : Template.Through σ.bound ts)
    (hat : σ.Has k ts) (w : Held) : ∃ w', Interpose.Comes σ.pool σ.body (k, w) (k + ts.length, w') := by
  have onward {k : Nat} {t : Template} (hcode : σ.code[k]? = some t) (ht : t.onward = true) (w : Held) :
      ∃ w', Flows σ.pool σ.body (k, w) (k + 1, w') := by
    obtain ⟨insn, hinsn, hsettles⟩ := forall₂_getElem? σ.settled hcode
    exact ⟨_, .next hinsn (by rw [hsettles.isTerminal, ht]; rfl)⟩
  induction h generalizing k w with
  | nil => exact ⟨w, .refl⟩
  | @next t ts ht _ ih =>
    obtain ⟨w₁, hstep⟩ := onward hat.head ht w
    obtain ⟨w', hcomes⟩ := ih hat.tail w₁
    rw [List.length_cons, Nat.add_comm ts.length, ← Nat.add_assoc]
    exact ⟨w', .head hstep hcomes⟩
  | @past op l between ts hl _ ih =>
    have hplace := hat.tail.append_right
    obtain ⟨insn, hinsn, hsettles⟩ := forall₂_getElem? σ.settled hat.head
    cases hsettles
    have hjump : Flows σ.pool σ.body (k, w) (k + 1 + between.length, _) :=
      .jump hinsn (List.mem_singleton_self _) (σ.placed _ l hl hplace.head)
    obtain ⟨w₂, hstep⟩ := onward hplace.head rfl (w.after σ.pool (.jump op l))
    obtain ⟨w', hcomes⟩ := ih hplace.tail w₂
    have hlength : k + (Template.jump op l :: (between ++ .place l :: ts)).length =
        k + 1 + between.length + 1 + ts.length := by
      rw [List.length_cons, List.length_append, List.length_cons]
      omega
    rw [hlength]
    exact ⟨w', .head hjump (.head hstep hcomes)⟩

namespace WeaveSite

open Template

variable (s : WeaveSite)

/-- In front of a copy there is nothing, a report, or a label. -/
theorem segment_front (p : Position) (l : Label) (m : MemberRef) (i : Insn) :
    (s.segment p l m i).front = [] ∨ (∃ ts, (s.segment p l m i).front = .op Op.iconst2 :: ts) ∨
      ∃ l', (s.segment p l m i).front = [.place l'] := by
  have guarded : ∀ l, (s.guardedSegment i l).front = [] ∨
      ∃ l', (s.guardedSegment i l).front = [.place l'] := by
    intro l
    unfold guardedSegment
    split
    · exact .inr ⟨l, rfl⟩
    · exact .inl rfl
  cases i with
  | line n =>
    unfold segment
    simp only
    split <;> exact .inl rfl
  | simple op =>
    unfold segment
    simp only
    split
    · exact .inr (.inl ⟨_, rfl⟩)
    · exact .inl rfl
  | method op index =>
    unfold segment callSegment
    simp only
    split
    · split
      · exact .inr (.inl ⟨_, rfl⟩)
      · rcases guarded l with h | h
        · exact .inl h
        · exact .inr (.inr h)
    · exact .inl rfl
  | _ => exact .inl rfl

/-- Where control comes to an instruction of the method in woven code: in front of what is woven
around it, but behind the report of the start. -/
def Parts.door (w : Parts) (i : Nat) : Nat :=
  w.edge i + if i = w.prologue.length then w.opening.length else 0

end WeaveSite

namespace Weave

open WeaveSite Template

namespace WovenFrom

variable {s : WeaveSite} {q : Pool} {given woven : Body} {entry : Nat} {w : Parts}

section Door

variable (hw : WovenFrom s q given entry w woven) (hne : w.segments ≠ []) (hlabels : LabelsBelow given)
include hw hne hlabels

/-- What stands between the door of an instruction and the copy. -/
theorem front_of_piece {i : Nat} {g : Segment} (hg : w.pieces[i]? = some g) : ∃ front,
    w.spot i = w.door i + front.length ∧ (hw.watched hlabels).Has (w.door i) front ∧
    (front = [] ∨ (∃ ts, front = .op Op.iconst2 :: ts) ∨ ∃ l', front = [.place l']) ∧
    (g.insn.isTerminal = false → (hw.watched hlabels).Lifts front 0 0 ∧ (hw.watched hlabels).Lifts g.back 0 0) ∧
    (g.insn.isEvent = false → front = []) := by
  obtain ⟨hat, -⟩ := hw.has_around hne hlabels hg
  obtain ⟨-, ⟨hlt, he⟩ | ⟨hge, pos, l, m, hl, he⟩⟩ := hw.piece_cases hg
  · refine ⟨[], ?_, fun j t ht => (nomatch ht), .inl rfl, fun _ => ?_, fun _ => rfl⟩
    · rw [Parts.spot_eq hg, Parts.door, if_neg (Nat.ne_of_lt hlt), he]
      rfl
    · rw [he]
      exact ⟨Stage.lifts_nil, Stage.lifts_nil⟩
  · have hbound : given.nextLabel ≤ l := Nat.le_trans hw.start_fresh (Nat.le_of_add_right_le hl)
    refine ⟨(s.segment pos l m g.insn).front, ?_, ?_, s.segment_front pos l m g.insn, fun hon => ?_,
      fun hplain => by rw [s.segment_plain pos l m hplain]⟩
    · have hfront : g.front = (if i = w.prologue.length then w.opening else []) ++
          (s.segment pos l m g.insn).front := congrArg Segment.front he
      have hlength : (if i = w.prologue.length then w.opening else []).length =
          if i = w.prologue.length then w.opening.length else 0 := by split <;> rfl
      rw [Parts.spot_eq hg, Parts.door, hfront, List.length_append, hlength, Nat.add_assoc]
    · rw [he] at hat
      change Stage.Has _ _ ((if i = w.prologue.length then w.opening else []) ++ _) at hat
      have := hat.append_right
      rw [Parts.door]
      split at this
      · rwa [if_pos ‹_›]
      · rwa [if_neg ‹_›]
    · obtain ⟨hfront, hback⟩ := s.lifts_segment (σ := hw.watched hlabels) hbound pos m hon
      refine ⟨hfront, ?_⟩
      rw [he]
      exact hback

/-- Nothing is woven in front of what reports no event. -/
theorem door_of_plain {i : Nat} {insn : Insn} (hi : given.insns[i]? = some insn)
    (hplain : insn.isEvent = false) :
    w.door i = w.spot i := by
  obtain ⟨g, hg⟩ := hw.piece_of_lt (List.getElem?_eq_some_iff.1 hi).1
  obtain ⟨front, hspot, -, -, -, hfront⟩ := hw.front_of_piece hne hlabels hg
  have hsame : g.insn = insn := Option.some.inj ((hw.insn_of_piece hg).symm.trans hi)
  rw [hspot, hfront (hsame ▸ hplain), List.length_nil, Nat.add_zero]

/-- The next piece starts behind what is woven behind a copy. -/
theorem lifts_next {i : Nat} {insn : Insn} (hi : given.insns[i]? = some insn) (hon : insn.isTerminal = false)
    (o : Held) : Comes q woven (w.door i, o) (w.edge (i + 1), o.after q insn) := by
  obtain ⟨g, hg⟩ := hw.piece_of_lt (List.getElem?_eq_some_iff.1 hi).1
  obtain ⟨front, hspot, hat, -, hlifts, -⟩ := hw.front_of_piece hne hlabels hg
  have hsame : g.insn = insn := Option.some.inj ((hw.insn_of_piece hg).symm.trans hi)
  obtain ⟨hfront, hback⟩ := hlifts (hsame ▸ hon)
  have hto : Comes q woven (w.door i, o) (w.spot i, o) := hspot ▸ hfront _ o hat
  have hbehind : Comes q woven (w.spot i + 1, o.after q insn) (w.edge (i + 1), o.after q insn) := by
    rw [Parts.edge_next hg]
    exact hback _ _ (hw.has_around hne hlabels hg).2
  exact (hto.tail (.next (hw.insn_at_spot hne hi) hon)).trans hbehind

/-- Where an exception is thrown in the method, it is thrown in woven code. -/
theorem thrown_from_door {i j : Nat} {insn : Insn} {t : TryCatch} (hi : given.insns[i]? = some insn)
    (hreal : insn.isPseudo = false) (ht : t ∈ given.tryCatch) (hcovers : t.Covers given.insns i)
    (hj : LastPlace given.insns t.handler j) (o : Held) :
    Comes q woven (w.door i, o) (w.spot j, o.thrown) := by
  obtain ⟨g, hg⟩ := hw.piece_of_lt (List.getElem?_eq_some_iff.1 hi).1
  obtain ⟨front, hspot, hat, hcases, -⟩ := hw.front_of_piece hne hlabels hg
  obtain ⟨calls, own, htable, -⟩ := hw.tryCatch
  have hmem : t ∈ woven.tryCatch := by
    rw [htable]
    exact List.mem_append_left _ (List.mem_append_right _ ht)
  have hhandler := hw.lastPlace_spot hne hlabels hj
  have hcovered {k : Nat} (hlo : w.door i ≤ k) (hhi : k ≤ w.spot i) : t.Covers woven.insns k := by
    obtain ⟨a, b, ha, hb, hai, hib⟩ := hcovers
    have hlt {n : Nat} (hn : n < given.insns.length) : n < w.pieces.length := hw.pieces_length ▸ hn
    refine ⟨_, _, hw.lastPlace_spot hne hlabels ha, hw.lastPlace_spot hne hlabels hb, ?_,
      Nat.lt_of_le_of_lt hhi (Parts.spot_lt hib (hlt hb.lt))⟩
    rcases Nat.eq_or_lt_of_le hai with rfl | hai
    · rw [Option.some.inj (hi.symm.trans ha.1)] at hreal
      cases hreal
    · have hedge := Parts.spot_lt_edge (w := w) (List.getElem?_eq_getElem (hlt ha.lt)) hai
      exact Nat.le_trans (Nat.le_of_lt hedge) (Nat.le_trans (Nat.le_add_right _ _) hlo)
  have hat_spot : Flows q woven (w.spot i, o) (w.spot j, o.thrown) :=
    .thrown (hw.insn_at_spot hne hi) hreal hmem
    (hcovered (hspot ▸ Nat.le_add_right _ _) (Nat.le_refl _)) hhandler
  rcases hcases with rfl | ⟨ts, rfl⟩ | ⟨l', rfl⟩
  · rw [List.length_nil, Nat.add_zero] at hspot
    exact hspot ▸ .single hat_spot
  · obtain ⟨insn', hinsn', hsettles⟩ := forall₂_getElem? hw.insns hat.head
    cases hsettles
    exact .single (.thrown hinsn' rfl hmem (hcovered (Nat.le_refl _) (hspot ▸ Nat.le_add_right _ _)) hhandler)
  · obtain ⟨insn', hinsn', hsettles⟩ := forall₂_getElem? hw.insns hat.head
    cases hsettles
    have hnext : Flows q woven (w.door i, o) (w.door i + 1, o.after q (.label l')) := .next hinsn' rfl
    rw [Held.after_pseudo q o rfl, show w.door i + 1 = w.spot i from hspot.symm] at hnext
    exact .tail (.single hnext) hat_spot

/-- A path of the method is one of woven code, to the door of each instruction, and the object under
construction is held in the same places. It is held nowhere where the start is reported, since it is
constructed in front of the entry point. -/
theorem comes_door {o : Held} (hpos : 0 < entry) (hfree : ∀ i insn o', entry = i + 1 →
      given.insns[i]? = some insn → Comes q given (0, o) (i, o') → (o'.after q insn).Free)
    {y : Nat × Held} (hcomes : Comes q given (0, o) y) :
    ∃ o', Comes q woven (0, o) (w.door y.1, o') ∧ y.2.Same o' := by
  have hlength := hw.length_prologue hne
  induction hcomes with
  | refl =>
    refine ⟨o, ?_, .refl o⟩
    rw [show w.door 0 = 0 by
      rw [Parts.door, if_neg (by omega), Parts.edge_of_le (Nat.zero_le _)]]
  | @tail x y hx hstep ih =>
    obtain ⟨o₁, hcomes, hsame⟩ := ih
    cases hstep with
    | @next i insn o' hi hon =>
      have hafter := hcomes.trans (hw.lifts_next hne hlabels hi hon o₁)
      by_cases hentry : i + 1 = w.prologue.length
      · -- behind the call of the other constructor the start is reported
        have hnone : (o₁.after q insn).Free :=
          (hsame.after q insn).free (hfree i insn o' (hlength ▸ hentry.symm) hi hx)
        have hopening : (hw.watched hlabels).Has w.prologue.length w.opening := by
          have := (hw.has_rest hlabels)
          rw [← List.append_assoc] at this
          exact this.append_left
        obtain ⟨o₂, hthrough⟩ := (hw.watched hlabels).comes_through
          (hw.through_before.append (.next rfl .nil)) hopening (o₁.after q insn)
        refine ⟨o₂, ?_, .inr ⟨hfree i insn o' (hlength ▸ hentry.symm) hi hx, hnone.comes hthrough⟩⟩
        rw [Parts.door, if_pos hentry]
        refine hafter.trans ?_
        rw [hentry, Parts.edge_of_le (Nat.le_refl _)]
        exact hthrough
      · refine ⟨o₁.after q insn, ?_, hsame.after q insn⟩
        rw [Parts.door, if_neg hentry]
        exact hafter
    | @jump i j insn l o' hi hl hj =>
      have hplain : insn.isEvent = false := by
        cases insn with
        | jump _ _ | tableSwitch _ _ _ | lookupSwitch _ _ => rfl
        | _ => cases hl
      refine ⟨o₁.after q insn, hcomes.tail ?_, hsame.after q insn⟩
      rw [hw.door_of_plain hne hlabels hi hplain, hw.door_of_plain hne hlabels hj.1 rfl]
      exact .jump (hw.insn_at_spot hne hi) hl (hw.lastPlace_spot hne hlabels hj)
    | @thrown i j insn t o' hi hreal ht hcovers hj =>
      refine ⟨o₁.thrown, hcomes.trans ?_, hsame.thrown⟩
      rw [hw.door_of_plain hne hlabels hj.1 rfl]
      exact hw.thrown_from_door hne hlabels hi hreal ht hcovers hj o₁

end Door

end WovenFrom

/-! ## The call of the other constructor -/

/-- On a path of a constructor an instruction calls another one for the object under construction. -/
def Constructs (pool : Pool) (b : Body) (o : Held) (i : Nat) : Prop :=
  ∃ index n o', b.insns[i]? = some (.method Op.invokespecial index) ∧
    pool.constructorSlots Op.invokespecial index = some n ∧ Comes pool b (0, o) (i, o') ∧
    o'.stack[n]? = some true

/-- By the frames an instruction calls another constructor for the object under construction; the
instructions are those from number `i` on. -/
def CallsAt (pool : Pool) (frames : Array (Option Frame)) (i : Nat) (insns : List Insn) (k : Nat) : Prop :=
  ∃ index f n, insns[k]? = some (.method Op.invokespecial index) ∧ frames[i + k]? = some (some f) ∧
    pool.constructorSlots Op.invokespecial index = some n ∧ f.stack[n]? = some .uninitializedThis

theorem callsAt_succ {pool : Pool} {frames : Array (Option Frame)} {i k : Nat} {insn : Insn}
    {rest : List Insn} :
    CallsAt pool frames i (insn :: rest) (k + 1) ↔ CallsAt pool frames (i + 1) rest k := by
  rw [CallsAt, CallsAt, List.getElem?_cons_succ, show i + (k + 1) = i + 1 + k by omega]

/-- The call that is found is the first one, and every invocation in front of it can be looked up. -/
theorem constructorCall_first {pool : Pool} {frames : Array (Option Frame)} {i n : Nat} {insns : List Insn}
    (h : constructorCall pool frames i insns = .ok n) : ∃ k, n = i + k ∧ CallsAt pool frames i insns k ∧
      ∀ j < k, ¬ CallsAt pool frames i insns j ∧
        ∀ index, insns[j]? = some (.method Op.invokespecial index) → ∃ m, pool.memberRef index = .ok m := by
  have later {i n : Nat} {insn : Insn} {rest : List Insn} (hnot : ¬ CallsAt pool frames i (insn :: rest) 0)
      (hknown : ∀ index, insn = .method Op.invokespecial index → ∃ m, pool.memberRef index = .ok m)
      (hrest : ∃ k, n = i + 1 + k ∧ CallsAt pool frames (i + 1) rest k ∧
        ∀ j < k, ¬ CallsAt pool frames (i + 1) rest j ∧
          ∀ index, rest[j]? = some (.method Op.invokespecial index) → ∃ m, pool.memberRef index = .ok m) :
      ∃ k, n = i + k ∧ CallsAt pool frames i (insn :: rest) k ∧
        ∀ j < k, ¬ CallsAt pool frames i (insn :: rest) j ∧
          ∀ index, (insn :: rest)[j]? = some (.method Op.invokespecial index) →
            ∃ m, pool.memberRef index = .ok m := by
    obtain ⟨k, hn, hcall, hbefore⟩ := hrest
    refine ⟨k + 1, by omega, callsAt_succ.2 hcall, fun j hj => ?_⟩
    cases j with
    | zero => exact ⟨hnot, fun index hat => hknown index (Option.some.inj hat)⟩
    | succ j =>
      obtain ⟨hnot, hknown⟩ := hbefore j (Nat.lt_of_succ_lt_succ hj)
      exact ⟨fun hcall => hnot (callsAt_succ.1 hcall), hknown⟩
  fun_induction constructorCall pool frames i insns with
  | case1 i => cases h
  | case2 i index rest ih =>
    obtain ⟨m, hm, h⟩ := bind_eq_ok.1 h
    have hm : pool.memberRef index = .ok m := mapError_eq_ok.1 hm
    have hknown : ∀ index', Insn.method Op.invokespecial index = .method Op.invokespecial index' →
        ∃ m, pool.memberRef index' = .ok m := fun index' he => by
      cases he
      exact ⟨m, hm⟩
    split at h
    · rename_i f hf
      split at h
      · rename_i hname
        obtain ⟨d, hd, h⟩ := bind_eq_ok.1 h
        have hd : MethodDescriptor.ofDescriptor m.descriptor = .ok d := mapError_eq_ok.1 hd
        have hslots : pool.constructorSlots Op.invokespecial index = some d.parameterSlots := by
          simp only [Pool.constructorSlots, bind_toOption hm, bind_toOption hd]
          rw [if_pos (by simp [hname])]
        split at h
        · rename_i hthis
          cases h
          exact ⟨0, rfl, ⟨index, f, _, rfl, hf, hslots, hthis⟩, fun j hj => absurd hj (Nat.not_lt_zero _)⟩
        · rename_i hthis
          refine later ?_ hknown (ih h)
          rintro ⟨index', f', n', hat, hf', hslots', hthis'⟩
          cases hat
          cases hslots.symm.trans hslots'
          cases hf.symm.trans hf'
          exact hthis hthis'
      · rename_i hname
        refine later ?_ hknown (ih h)
        rintro ⟨index', f', n', hat, hf', hslots', hthis'⟩
        cases hat
        rw [Pool.constructorSlots, bind_toOption hm] at hslots'
        obtain ⟨d, -, hslots'⟩ := Option.bind_eq_some_iff.1 hslots'
        rw [if_neg (by simp [hname])] at hslots'
        cases hslots'
    · rename_i hnone
      refine later ?_ hknown (ih h)
      rintro ⟨index', f', n', hat, hf', -⟩
      exact hnone f' hf'
  | case3 i insn rest hother ih =>
    refine later ?_ (fun index he => absurd he (hother index)) (ih h)
    rintro ⟨index', f', n', hat, -⟩
    exact hother index' (Option.some.inj hat)

/-- What is known of an invocation does not depend on what is added to the pool. -/
theorem constructorSlots_within {p q : Pool} (hpq : p.Within q) {op : Opcode} {index : UInt16} {m : MemberRef}
    (hm : p.memberRef index = .ok m) : q.constructorSlots op index = p.constructorSlots op index := by
  simp only [Pool.constructorSlots, bind_toOption hm, bind_toOption (hpq.memberRef hm)]

theorem memberRef_of_constructorSlots {p : Pool} {op : Opcode} {index : UInt16} {n : Nat}
    (h : p.constructorSlots op index = some n) : ∃ m, p.memberRef index = .ok m := by
  obtain ⟨m, hm, -⟩ := Option.bind_eq_some_iff.1 h
  cases hmember : p.memberRef index with
  | ok m => exact ⟨m, rfl⟩
  | error e =>
    rw [hmember] at hm
    cases hm

section EntryPoint

variable {b : Body} {context : MethodContext} {p q : Pool} {h : Hierarchy} {entry : Nat}

/-- The entry point of a constructor is behind the first call of another constructor. On every path
the object is under construction there. -/
theorem entryPoint_constructs (hstart : context.startsUninitialized = true) (hpq : p.Within q)
    (hentry : entryPoint b context p h = .ok entry) : ∃ i, entry = i + 1 ∧
      Constructs q b (.initial context) i ∧ ∀ j < i, ¬ Constructs q b (.initial context) j := by
  unfold entryPoint at hentry
  rw [if_pos hstart] at hentry
  obtain ⟨a, ha, hentry⟩ := bind_eq_ok.1 hentry
  obtain ⟨n, hn, hentry⟩ := bind_eq_ok.1 hentry
  cases hentry
  obtain ⟨k, hk, hcall, hbefore⟩ := constructorCall_first hn
  rw [Nat.zero_add] at hk
  subst hk
  obtain ⟨m, -, hm, -⟩ := Analysis.analyze_eq_ok ha
  have framed {i : Nat} {f : Frame} : a.frames[i]? = some (some f) ↔ a.frame i = some f := by
    rw [Analysis.frame, Option.join_eq_some_iff]
  have held {slots : Nat} {f : Frame} {o : Held} (hagrees : o.Agrees f) :
      o.stack[slots]? = some true ↔ f.stack[slots]? = some .uninitializedThis := by
    rw [hagrees.stack, List.getElem?_map, Option.map_eq_some_iff]
    constructor
    · rintro ⟨v, hv, hthis⟩
      rw [hv, eq_of_beq hthis]
    · exact fun hthis => ⟨_, hthis, rfl⟩
  refine ⟨n, rfl, ?_, fun j hj => ?_⟩
  · obtain ⟨index, f, slots, hinsn, hf, hslots, hthis⟩ := hcall
    rw [Nat.zero_add, framed] at hf
    obtain ⟨m', hm'⟩ := memberRef_of_constructorSlots hslots
    obtain ⟨o, ho⟩ := ((Analysis.analyze_frame_iff ha).1 ⟨f, hf⟩).comes q (.initial context)
    obtain ⟨f', hf', hagrees⟩ := comes_agrees hm ha hpq ho
    cases hf.symm.trans hf'
    exact ⟨index, slots, o, hinsn, (constructorSlots_within hpq hm').trans hslots, ho, (held hagrees).2 hthis⟩
  · obtain ⟨hnot, hknown⟩ := hbefore j hj
    rintro ⟨index, slots, o, hinsn, hslots, ho, htrue⟩
    obtain ⟨m', hm'⟩ := hknown index hinsn
    obtain ⟨f, hf, hagrees⟩ := comes_agrees hm ha hpq ho
    rw [constructorSlots_within hpq hm'] at hslots
    exact hnot ⟨index, f, slots, hinsn, by rw [Nat.zero_add, framed, hf], hslots, (held hagrees).1 htrue⟩

/-- All paths to an instruction leave the object under construction in the same operands. -/
theorem stack_unique (hpq : p.Within q) (hentry : entryPoint b context p h = .ok entry)
    (hstart : context.startsUninitialized = true) {i : Nat} {o o' : Held}
    (ho : Comes q b (0, .initial context) (i, o)) (ho' : Comes q b (0, .initial context) (i, o')) :
    o.stack = o'.stack := by
  unfold entryPoint at hentry
  rw [if_pos hstart] at hentry
  obtain ⟨a, ha, -⟩ := bind_eq_ok.1 hentry
  obtain ⟨m, -, hm, -⟩ := Analysis.analyze_eq_ok ha
  obtain ⟨f, hf, hagrees⟩ := comes_agrees hm ha hpq ho
  obtain ⟨f', hf', hagrees'⟩ := comes_agrees hm ha hpq ho'
  cases hf.symm.trans hf'
  rw [hagrees.stack, hagrees'.stack]

/-- Behind the call in front of the entry point nothing holds the object under construction. -/
theorem free_of_entryPoint (hpq : p.Within q) (hentry : entryPoint b context p h = .ok entry)
    (hstart : context.startsUninitialized = true) {i : Nat} {insn : Insn} {o : Held} (hi : entry = i + 1)
    (hinsn : b.insns[i]? = some insn) (ho : Comes q b (0, .initial context) (i, o)) :
    (o.after q insn).Free := by
  obtain ⟨i', hi', ⟨index, n, o', hinsn', hslots, ho', htrue⟩, -⟩ := entryPoint_constructs hstart hpq hentry
  obtain rfl : i' = i := by omega
  cases hinsn.symm.trans hinsn'
  rw [stack_unique hpq hentry hstart ho' ho] at htrue
  rw [Held.after, if_pos (by rw [hslots]; simpa using htrue)]
  exact Held.free_released

end EntryPoint

end Weave

end Interpose
