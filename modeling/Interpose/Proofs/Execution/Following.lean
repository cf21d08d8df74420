import Interpose.Proofs.Execution.Woven
import Interpose.Proofs.Inference.Result
/-!
# One instruction in woven code

What the copy of an instruction and the reports around it do together is what the instruction does
(`segment_follows`): the reports leave stack and local variables as they are, and an exception goes to
the same handler, through those of the reports.
-/

namespace Interpose

namespace Word

variable {Object : Type}

/-- A return takes its value off the top of the stack. -/
theorem returned_prefix {op : Opcode} {st value : List (Word Object)}
    (h : returned op st = some value) : ∃ rest, st = value ++ rest := by
  unfold returned at h
  split at h
  · cases h
    exact ⟨_, rfl⟩
  all_goals
    cases h
    try exact ⟨_, rfl⟩

/-- The return opcode of a type returns a value of the type. -/
theorem returned_fits {t : JavaType} {st value : List (Word Object)}
    (h : returned t.returnOpcode st = some value) : (t = .void ∧ value = []) ∨ Fits t value := by
  have integral : returned Op.ireturn st = some value → ∃ n, value = [.int n] := by
    intro h
    unfold returned at h
    split at h <;> first | contradiction | (cases h; exact ⟨_, rfl⟩)
  have reference : returned Op.areturn st = some value → t.isReference = true → Fits t value := by
    intro h ht
    unfold returned at h
    split at h <;> first
      | contradiction
      | (cases h; exact .null ht)
      | (cases h; exact .object _ ht)
  cases t with
  | void =>
    refine .inl ⟨rfl, ?_⟩
    cases st <;> exact (Option.some.inj h).symm
  | boolean =>
    obtain ⟨n, rfl⟩ := integral h
    exact .inr (.boolean n)
  | byte =>
    obtain ⟨n, rfl⟩ := integral h
    exact .inr (.byte n)
  | char =>
    obtain ⟨n, rfl⟩ := integral h
    exact .inr (.char n)
  | short =>
    obtain ⟨n, rfl⟩ := integral h
    exact .inr (.short n)
  | int =>
    obtain ⟨n, rfl⟩ := integral h
    exact .inr (.int n)
  | long =>
    unfold returned at h
    split at h <;> first | contradiction | (cases h; exact .inr (.long _))
  | float =>
    unfold returned at h
    split at h <;> first | contradiction | (cases h; exact .inr (.float _))
  | double =>
    unfold returned at h
    split at h <;> first | contradiction | (cases h; exact .inr (.double _))
  | object name => exact .inr (reference h rfl)
  | array component => exact .inr (reference h rfl)

end Word

namespace Weave

open WeaveSite Platform Platform.Neutral Stage

namespace WovenFrom

variable {P : Platform} {own : Operation → Prop} {N : P.Neutral own} {s : WeaveSite} {p q : Pool}
  {given woven : Body} {w : Parts} {context : MethodContext} {h : Hierarchy} {m : Analysis.Method}
  {ρ : P.Object → P.Object → Prop} {bound : Nat}

/-! ## Reports around a copy -/

section Around

variable (hw : WovenFrom s q given 0 w woven) (hlabels : LabelsBelow given)
  {x y : P.World} {τ : List (Word P.Object)} {ν : Nat → Word P.Object}
include hw hlabels

/-- Up to the copy nothing changes but the world. -/
theorem front_passes {i : Nat} {insn : Insn} (hi : given.insns[i]? = some insn)
    (hb : N.Beside x y ρ [])
    (hreturn : ∀ op, insn = .simple op → Op.isReturn op = true →
      ∃ value rest, τ = value ++ rest ∧
        ((s.returnType = .void ∧ value = []) ∨ Word.Fits s.returnType value)) :
    ∃ y1, Passes P (hw.stage hlabels) (w.offset i) ⟨y, τ, ν⟩ (w.copy i) ⟨y1, τ, ν⟩ ∧
      N.Beside x y1 ρ [] := by
  obtain ⟨g, pos, l, mem, hg, he, hl, -⟩ := hw.segment_at hi
  have front : ∃ y1, Does P (hw.stage hlabels) g.front ⟨y, τ, ν⟩ ⟨y1, τ, ν⟩ ∧
      N.Beside x y1 ρ [] := by
    have nothing : g.front = [] → ∃ y1,
        Does P (hw.stage hlabels) g.front ⟨y, τ, ν⟩ ⟨y1, τ, ν⟩ ∧ N.Beside x y1 ρ [] := by
      intro h
      rw [h]
      exact ⟨y, .nil, hb⟩
    rw [he] at nothing ⊢
    cases insn with
    | simple op =>
      unfold WeaveSite.segment at nothing ⊢
      simp only at nothing ⊢
      split
      · rename_i hwants
        simp only [Bool.and_eq_true] at hwants
        obtain ⟨value, rest, rfl, hvalue⟩ := hreturn op rfl hwants.1.1
        exact returnReport_does N s hb hvalue hl
      · exact ⟨y, .nil, hb⟩
    | method op index =>
      have guarded : ∀ l' : Nat, ∃ y1, Does P (hw.stage hlabels)
          (s.guardedSegment (.method op index) l').front ⟨y, τ, ν⟩ ⟨y1, τ, ν⟩ ∧
          N.Beside x y1 ρ [] := by
        intro l'
        unfold guardedSegment
        split
        · exact ⟨y, .one (goesOn_place l'), hb⟩
        · exact ⟨y, .nil, hb⟩
      unfold WeaveSite.segment callSegment
      simp only
      split
      · split
        · obtain ⟨y1, hreport, hb1⟩ := callBeforeReport_does N (σ := hw.stage hlabels) (τ := τ)
            (ν := ν) s hb (pos.after (.method op index)).line mem hl
          unfold guardedSegment
          split
          · exact ⟨y1, hreport.append (.one (goesOn_place _)), hb1⟩
          · exact ⟨y1, hreport.append .nil, hb1⟩
        · exact guarded l
      · exact ⟨y, .nil, hb⟩
    | line n =>
      apply nothing
      unfold WeaveSite.segment
      simp only
      split <;> rfl
    | _ => exact nothing rfl
  obtain ⟨y1, hdoes, hb1⟩ := front
  refine ⟨y1, ?_, hb1⟩
  rw [Parts.copy_eq hg]
  exact hdoes _ (hw.has_front hlabels hg) fun j hj => hw.skips_front hlabels hg hj

/-- Behind the copy nothing changes but the world, where the instruction goes on with the next one. -/
theorem back_passes {i : Nat} {insn : Insn} (hi : given.insns[i]? = some insn)
    (hb : N.Beside x y ρ []) : ∃ y1,
    Passes P (hw.stage hlabels) (w.copy i + 1) ⟨y, τ, ν⟩ (w.offset (i + 1)) ⟨y1, τ, ν⟩ ∧
      N.Beside x y1 ρ [] := by
  obtain ⟨g, pos, l, mem, hg, he, hl, -⟩ := hw.segment_at hi
  have hback := hw.has_back hlabels hg
  have hskips := fun j hj => hw.skips_back hlabels hg (j := j) hj
  rw [offset_next hg]
  have done : ∀ {y1}, Does P (hw.stage hlabels) g.back ⟨y, τ, ν⟩ ⟨y1, τ, ν⟩ →
      Passes P (hw.stage hlabels) (w.copy i + 1) ⟨y, τ, ν⟩ (w.copy i + 1 + g.back.length)
        ⟨y1, τ, ν⟩ := fun h => h _ hback hskips
  -- behind an invocation with a handler of its own, the handler is jumped over
  have guarded : ∀ l' : Nat, given.nextLabel ≤ l' → g.back = s.guardedBack l' → ∃ y1,
      Passes P (hw.stage hlabels) (w.copy i + 1) ⟨y, τ, ν⟩ (w.copy i + 1 + g.back.length)
        ⟨y1, τ, ν⟩ ∧ N.Beside x y1 ρ [] := by
    intro l' hl' hb'
    obtain ⟨y1, hreport, hb1⟩ := callReturnReport_does N (σ := hw.stage hlabels) (τ := τ) (ν := ν) s
      hb (show (hw.stage hlabels).bound ≤ l' + 4 from Nat.le_add_right_of_le hl')
    refine ⟨y1, ?_, hb1⟩
    have hlen : g.back.length = (s.callReturnReport (l' + 4)).length +
        (s.callThrowsReport (l' + 4 + s.callReturnLabels)).length + 5 := by
      rw [hb']
      simp only [guardedBack, List.length_cons, List.length_append, List.length_nil]
      omega
    rw [hb'] at hback
    have hbody : (hw.stage hlabels).Has (w.copy i + 1 + 1) (s.callReturnReport (l' + 4) ++
        ([Template.jump Op.goto (l' + 3), .place (l' + 2)] ++
          (s.callThrowsReport (l' + 4 + s.callReturnLabels) ++ [Template.op Op.athrow, .place (l' + 3)]))) :=
      hback.tail
    have hend := hbody.append_right.append_right.append_right
    refine passes_next hback.head (hskips 0 (by omega)) (goesOn_place _) ?_
    refine (hreport _ hbody.append_left fun j hj => ?_).trans ?_
    · have := hskips (1 + j) (by omega)
      rwa [← Nat.add_assoc] at this
    · refine passes_jump hbody.append_right.head ?_ (jumpsTo_plain (i := .jump Op.goto (l' + 3)) rfl)
        (show (hw.stage hlabels).bound ≤ l' + 3 from Nat.le_add_right_of_le hl') hend.tail.head ?_
      · have := hskips (1 + (s.callReturnReport (l' + 4)).length) (by omega)
        rwa [← Nat.add_assoc] at this
      · have hplace : w.copy i + 1 + 1 + (s.callReturnReport (l' + 4)).length +
            [Template.jump Op.goto (l' + 3), .place (l' + 2)].length +
            (s.callThrowsReport (l' + 4 + s.callReturnLabels)).length + 1 =
            w.copy i + 1 + (g.back.length - 1) := by
          simp only [List.length_cons, List.length_nil]
          omega
        refine passes_next hend.tail.head ?_ (goesOn_place _) ?_
        · rw [hplace]
          exact hskips _ (by omega)
        · rw [hplace, show w.copy i + 1 + (g.back.length - 1) + 1 = w.copy i + 1 + g.back.length by
            omega]
          exact .refl
  have reported : ∀ l' : Nat, given.nextLabel ≤ l' → g.back = s.callReturnReport l' → ∃ y1,
      Passes P (hw.stage hlabels) (w.copy i + 1) ⟨y, τ, ν⟩ (w.copy i + 1 + g.back.length)
        ⟨y1, τ, ν⟩ ∧ N.Beside x y1 ρ [] := by
    intro l' hl' hb'
    obtain ⟨y1, hreport, hb1⟩ := callReturnReport_does N (σ := hw.stage hlabels) (τ := τ) (ν := ν) s
      hb (show (hw.stage hlabels).bound ≤ l' from hl')
    rw [hb'] at done ⊢
    exact ⟨y1, done hreport, hb1⟩
  have nothing : g.back = [] → ∃ y1,
      Passes P (hw.stage hlabels) (w.copy i + 1) ⟨y, τ, ν⟩ (w.copy i + 1 + g.back.length)
        ⟨y1, τ, ν⟩ ∧ N.Beside x y1 ρ [] := by
    intro h
    rw [h]
    exact ⟨y, .refl, hb⟩
  have invoked : ∀ l' : Nat, given.nextLabel ≤ l' →
      g.back = (s.guardedSegment insn l').back → ∃ y1,
      Passes P (hw.stage hlabels) (w.copy i + 1) ⟨y, τ, ν⟩ (w.copy i + 1 + g.back.length)
        ⟨y1, τ, ν⟩ ∧ N.Beside x y1 ρ [] := by
    intro l' hl' hb'
    unfold guardedSegment at hb'
    split at hb'
    · exact guarded l' hl' hb'
    · exact reported l' hl' hb'
  cases insn with
  | line n =>
    unfold WeaveSite.segment at he
    simp only at he
    split at he
    · obtain ⟨y1, hreport, hb1⟩ := lineReport_does N (σ := hw.stage hlabels) (τ := τ) (ν := ν) s hb
        n (show (hw.stage hlabels).bound ≤ l from hl)
      rw [he] at done ⊢
      exact ⟨y1, done hreport, hb1⟩
    · exact nothing (by rw [he])
  | method op index =>
    unfold WeaveSite.segment callSegment at he
    simp only at he
    split at he
    · split at he
      · exact invoked (l + 2) (Nat.le_add_right_of_le hl) (by rw [he])
      · exact invoked l hl (by rw [he])
    · exact nothing (by rw [he])
  | simple op =>
    apply nothing
    rw [he]
    unfold WeaveSite.segment
    simp only
    split <;> rfl
  | _ => exact nothing (by rw [he]; rfl)

end Around

/-! ## Exceptions -/

/-- The status of woven code is that of the method, beside further objects. -/
inductive Keeping (N : P.Neutral own) (w : Parts) (bound : Nat) (ρ : P.Object → P.Object → Prop) :
    P.Status → P.Status → Prop
  | running {i s s' ρ1} : (∀ o o', ρ o o' → ρ1 o o') → N.Alike bound ρ1 s s' →
    Keeping N w bound ρ (.running i s) (.running (w.offset i) s')
  | returned {value value' x y ρ1} : (∀ o o', ρ o o' → ρ1 o o') → N.Beside x y ρ1 [] →
    List.Forall₂ (Word.Alike ρ1) value value' →
    Keeping N w bound ρ (.returned value x) (.returned value' y)
  | thrown {o o' x y ρ1} : (∀ o o', ρ o o' → ρ1 o o') → N.Beside x y ρ1 [] → ρ1 o o' →
    Keeping N w bound ρ (.thrown o x) (.thrown o' y)

theorem Keeping.mono {ρ1 : P.Object → P.Object → Prop} (hρ : ∀ o o', ρ o o' → ρ1 o o')
    {a b : P.Status} (hab : Keeping N w bound ρ1 a b) : Keeping N w bound ρ a b := by
  cases hab with
  | running h1 hs => exact .running (fun o o' ho => h1 o o' (hρ o o' ho)) hs
  | returned h1 hb hv => exact .returned (fun o o' ho => h1 o o' (hρ o o' ho)) hb hv
  | thrown h1 hb ho => exact .thrown (fun o o' ho => h1 o o' (hρ o o' ho)) hb ho

section Exceptions

variable (hw : WovenFrom s q given 0 w woven) (hlabels : LabelsBelow given)
  (hm : m.Of given context p h) (hpq : p.Within q)

include hw

theorem handler_fresh : given.nextLabel ≤ w.handler := by
  rw [hw.rebuilt.handler, hw.rebuilt.start, Nat.add_assoc, Nat.add_assoc]
  exact Nat.le_add_right _ _

include hlabels

/-- The handler of an invocation covers nothing in front of its segment and nothing behind the copy. -/
theorem not_call_covers {calls : List TryCatch} {k : Nat}
    (hcalls : List.Forall₂ (Range.Settles q) (w.segments.flatMap Segment.ranges) calls)
    (hk : ∀ i g, w.segments[i]? = some g → g.ranges ≠ [] → k < w.offset i ∨ w.copy i < k) :
    ∀ t ∈ calls, ¬ t.Covers woven.insns k := by
  rintro t ht ⟨a, b, ha, hb, hak, hkb⟩
  obtain ⟨i, g, l, hg, hl, hguarded, hsettles⟩ := hw.call_covers hcalls ht
  obtain ⟨-, hstart, hstop, -⟩ := hw.guarded_places hlabels hg hl hguarded
  rw [hsettles.start] at ha
  rw [hsettles.stop] at hb
  cases ha.unique hstart
  cases hb.unique hstop
  have hranges : g.ranges ≠ [] := by
    rw [hguarded.ranges]
    exact nofun
  obtain ⟨front, hfront⟩ := hguarded.front
  have hlen : 0 < g.front.length := by
    rw [hfront, List.length_append]
    exact Nat.succ_pos _
  have hcopy := Parts.copy_eq hg
  have := hk i g hg hranges
  omega

/-- Behind the segments an exception leaves the method. -/
theorem raise_behind (hm : m.Of given context p h) {k : Nat} {u : P.Store} {y : P.World}
    {o : P.Object} (hk : w.offset given.insns.length ≤ k) :
    P.raise q woven k u y o = .thrown o y := by
  obtain ⟨calls, ownRange, htable, hcalls, hown⟩ := hw.tryCatch
  apply raise_uncovered
  intro t ht
  rw [htable, List.mem_append, List.mem_append] at ht
  rcases ht with (ht | ht) | ht
  · refine hw.not_call_covers hlabels hcalls (fun i g hg _ => ?_) t ht
    have hi := (List.getElem?_eq_some_iff.1 hg).1
    rw [hw.segments_length] at hi
    exact .inr (Nat.lt_of_lt_of_le (Parts.copy_lt_offset hg hi) hk)
  · obtain ⟨g, -, -, hstop, -⟩ := (mem_forall₂ hm.guards).1 t ht
    exact hw.not_given_covers hlabels hstop hk
  · obtain ⟨r, hr, hsettles⟩ := (mem_forall₂ hown).2 t ht
    split at hr
    · rw [List.mem_singleton] at hr
      rw [hr] at hsettles
      intro hcovers
      have := ((hw.own_covers hlabels hsettles).1 hcovers).2
      omega
    · cases hr

/-- The handler of the method reports an exception and throws it again. -/
theorem handler_throws (hm : m.Of given context p h) (hwants : s.wants .throws = true)
    {x y : P.World} {ν : Nat → Word P.Object} {o o' : P.Object} (hb : N.Beside x y ρ [])
    (ho : ρ o o') (hthrowable : P.isA x o throwableClass = true) : ∃ y1,
    Stage.Comes P (hw.stage hlabels) (.running (w.offset given.insns.length + 1) ⟨y, [.object o'], ν⟩)
      (.thrown o' y1) ∧ N.Beside x y1 ρ [] := by
  have hfinish := hw.rebuilt.finish
  rw [if_pos hwants] at hfinish
  have hle : given.nextLabel ≤ w.handler + 1 := Nat.le_succ_of_le hw.handler_fresh
  obtain ⟨front, y1, ν1, hreport, hdoes, hb1⟩ := throwsReport_does N (σ := hw.stage hlabels) (ν := ν)
    s hb (o := o') (Emission.takeLocal^[s.ifWanted .before 1]
      (firstFree s.context given, firstFree s.context given)).1 hle
  rw [hreport] at hfinish
  have hat : (hw.stage hlabels).Has (w.offset given.insns.length + 1)
      (.place w.handler :: (front ++ [Template.op Op.athrow])) := by
    intro j t hj
    rw [Nat.add_assoc]
    refine hw.code_behind (k := 1 + j) ?_
    rw [Nat.add_comm 1 j, List.getElem?_cons_succ, hfinish, hj]
  have skips : ∀ k, w.offset given.insns.length ≤ k → (hw.stage hlabels).skips k := fun k hk =>
    hw.skips_outside hlabels (.inr hk)
  refine ⟨y1, ?_, hb1⟩
  refine (passes_next hat.head (skips _ (Nat.le_add_right _ _)) (goesOn_place _)
    (hdoes _ hat.tail.append_left fun j hj => skips _ (by omega))).comes ?_
  -- the exception that is thrown again finds no handler any more
  have hisA : P.isA y1 o' throwableClass = true := by rw [← N.isA hb1 ho, hthrowable]
  refine comes_throw hat.tail.append_right.head (skips _ (by omega)) hisA ?_
  change Stage.Comes P _ (P.raise q woven _ _ _ _) _
  rw [hw.raise_behind hlabels hm (by omega)]
  exact .refl

end Exceptions

section Raising

variable (hw : WovenFrom s q given 0 w woven) (hlabels : LabelsBelow given)
  (hm : m.Of given context p h) (hpq : p.Within q) {i k : Nat} {u v : P.Store} {x y : P.World}
  {o o' : P.Object}
include hw hlabels hm hpq

/-- In a segment, but for an invocation with a handler of its own, an exception goes where it goes
without reports. -/
theorem raise_within (hi : i < given.insns.length) (hlo : w.offset i ≤ k)
    (hhi : k < w.offset (i + 1))
    (hcall : ∀ g, w.segments[i]? = some g → g.ranges ≠ [] → w.copy i < k)
    (hlocals : ∀ n < bound, Word.Alike ρ (u.locals n) (v.locals n)) (hb : N.Beside x y ρ [])
    (ho : ρ o o') (hthrowable : P.isA x o throwableClass = true) : ∃ a,
    Stage.Comes P (hw.stage hlabels) (P.raise q woven k v y o') a ∧
      Keeping N w bound ρ (P.raise p given i u x o) a := by
  obtain ⟨calls, ownRange, htable, hcalls, hown⟩ := hw.tryCatch
  have hafter : w.offset (i + 1) ≤ w.offset given.insns.length := Parts.offset_mono hi
  have hbefore : w.before.length < w.offset i := by
    have := Parts.offset_mono (w := w) (Nat.zero_le i)
    have : w.offset 0 = w.before.length + 1 := rfl
    omega
  have hcalls : calls.find? (P.catches q (fun l => (labelPositions woven.insns)[l]?) y o' k) =
      none := by
    rw [List.find?_eq_none]
    intro t ht hcatches
    refine hw.not_call_covers hlabels hcalls (fun j g hg hranges => ?_) t ht
      (catches_eq_true.1 hcatches).1
    rcases Nat.lt_trichotomy j i with hlt | rfl | hlt
    · exact .inr (Nat.lt_of_lt_of_le (Parts.copy_lt_offset hg hlt) hlo)
    · exact .inr (hcall g hg hranges)
    · exact .inl (Nat.lt_of_lt_of_le hhi (Parts.offset_mono hlt))
  -- the entries of the method cover the segment as they cover the instruction
  have hgiven : given.tryCatch.find?
      (P.catches q (fun l => (labelPositions woven.insns)[l]?) y o' k) =
      given.tryCatch.find? (P.catches p (fun l => (labelPositions given.insns)[l]?) x o i) := by
    apply List.find?_congr
    intro t ht
    obtain ⟨g, -, hstart, hstop, -, -, -, hcatches⟩ := (mem_forall₂ hm.guards).1 t ht
    rw [hm.pool] at hcatches
    rw [Bool.eq_iff_iff, catches_eq_true, catches_eq_true,
      hw.given_covers hlabels hstart hstop hlo hhi]
    refine and_congr_right fun _ => ?_
    rcases hcatches with ⟨h0, -⟩ | ⟨-, hc⟩
    · simp only [h0, true_or]
    · have hisA : ∀ name, P.isA y o' name = P.isA x o name := fun name => (N.isA hb ho name).symm
      simp only [hc, hpq.className hc, hisA]
  have hthrowable' : P.isA y o' throwableClass = true := by rw [← N.isA hb ho, hthrowable]
  cases hfind : given.tryCatch.find?
      (P.catches p (fun l => (labelPositions given.insns)[l]?) x o i) with
  | some t =>
    obtain ⟨g, -, -, -, hhandler, -⟩ := (mem_forall₂ hm.guards).1 t (List.mem_of_find?_eq_some hfind)
    rw [raise_handled hfind hhandler]
    refine ⟨_, .refl, ?_⟩
    have hfound : woven.tryCatch.find?
        (P.catches q (fun l => (labelPositions woven.insns)[l]?) y o' k) = some t := by
      rw [htable, List.append_assoc, List.find?_append, hcalls, Option.none_or, List.find?_append,
        hgiven, hfind, Option.some_or]
    rw [raise_handled hfound (hw.lastPlace hlabels hhandler)]
    exact .running (fun _ _ h => h) ⟨hb, .cons (.object ho) .nil, hlocals⟩
  | none =>
    have hthrown : P.raise p given i u x o = .thrown o x := by simp only [raise, hfind]
    rw [hthrown]
    have hrest : woven.tryCatch.find?
        (P.catches q (fun l => (labelPositions woven.insns)[l]?) y o' k) =
        ownRange.find? (P.catches q (fun l => (labelPositions woven.insns)[l]?) y o' k) := by
      rw [htable, List.append_assoc, List.find?_append, hcalls, Option.none_or, List.find?_append,
        hgiven, hfind, Option.none_or]
    split at hown
    · rename_i hwants
      obtain ⟨t, hsettles, rfl⟩ : ∃ t, Range.Settles q ⟨w.start, w.start + 1, w.handler⟩ t ∧
          ownRange = [t] := by
        obtain _ | ⟨hsettles, _ | _⟩ := hown
        exact ⟨_, hsettles, rfl⟩
      have hcatches : P.catches q (fun l => (labelPositions woven.insns)[l]?) y o' k t = true :=
        catches_eq_true.2 ⟨(hw.own_covers hlabels hsettles).2 ⟨by omega, by omega⟩,
          .inr ⟨_, hsettles.catchType, hthrowable'⟩⟩
      have hfound : woven.tryCatch.find?
          (P.catches q (fun l => (labelPositions woven.insns)[l]?) y o' k) = some t := by
        rw [hrest, List.find?_cons_of_pos hcatches]
      have hplace : LastPlace woven.insns t.handler (w.offset given.insns.length + 1) := by
        rw [hsettles.handler]
        refine hw.lastPlace_fresh hlabels hw.handler_fresh (hw.code_behind (k := 1) ?_)
        rw [List.getElem?_cons_succ, hw.rebuilt.finish, if_pos hwants]
        rfl
      rw [raise_handled hfound hplace]
      obtain ⟨y1, hcomes, hb1⟩ := hw.handler_throws hlabels hm hwants hb ho hthrowable
      exact ⟨_, hcomes, .thrown (fun _ _ h => h) hb1 ho⟩
    · cases hown
      have hthrown' : P.raise q woven k v y o' = .thrown o' y := by
        simp only [raise, hrest, List.find?_nil]
      rw [hthrown']
      exact ⟨_, .refl, .thrown (fun _ _ h => h) hb ho⟩

omit hm hpq in
/-- An exception of an invocation with a handler of its own goes to that handler. -/
theorem raise_guarded {g : Segment} (hg : w.segments[i]? = some g) (hranges : g.ranges ≠ [])
    (hthrowable : P.isA y o throwableClass = true) : ∃ l : Nat, given.nextLabel ≤ l ∧
      g.back = s.guardedBack l ∧ P.raise q woven (w.copy i) u y o =
        .running (w.copy i + 1 + ((s.callReturnReport (l + 4)).length + 2)) ⟨y, [.object o], u.locals⟩ := by
  obtain ⟨calls, ownRange, htable, hcalls, -⟩ := hw.tryCatch
  obtain ⟨pos, l0, m0, hl0, he⟩ := (hw.segments.get hg).2
  have hbound : given.nextLabel ≤ l0 := by
    refine Nat.le_trans ?_ hl0
    rw [hw.rebuilt.start, Nat.add_assoc]
    exact Nat.le_add_right _ _
  obtain ⟨l1, hl1, hguarded1⟩ : ∃ l1 : Nat, l0 ≤ l1 ∧ Segment.Guarded s g l1 := by
    rw [he] at hranges ⊢
    exact (s.segment_guarded pos l0 m0 g.insn).resolve_left hranges
  -- some entry is for the copy, and any such entry is for this segment
  have hsome : (calls.find?
      (P.catches q (fun l => (labelPositions woven.insns)[l]?) y o (w.copy i))).isSome = true := by
    obtain ⟨hpos, hstart, hstop, -⟩ :=
      hw.guarded_places hlabels hg (Nat.le_trans hbound hl1) hguarded1
    obtain ⟨t, ht, hsettles⟩ := (mem_forall₂ hcalls).1 ⟨l1, l1 + 1, l1 + 2⟩
      (List.mem_flatMap.2 ⟨g, List.mem_of_getElem? hg, by
        rw [hguarded1.ranges]
        exact List.mem_singleton_self _⟩)
    have hs : t.start = l1 := hsettles.start
    have he : t.stop = l1 + 1 := hsettles.stop
    rw [← hs] at hstart
    rw [← he] at hstop
    exact List.find?_isSome.2 ⟨t, ht, catches_eq_true.2 ⟨⟨_, _, hstart, hstop, by omega, by omega⟩,
      .inr ⟨_, hsettles.catchType, hthrowable⟩⟩⟩
  obtain ⟨t, hfind⟩ := Option.isSome_iff_exists.1 hsome
  obtain ⟨⟨a, b, ha, hb, hak, hkb⟩, -⟩ := catches_eq_true.1 (List.find?_some hfind)
  obtain ⟨j, g', l, hg', hl, hguarded, hsettles⟩ :=
    hw.call_covers hcalls (List.mem_of_find?_eq_some hfind)
  obtain ⟨hpos, hstart, hstop, hhandler⟩ := hw.guarded_places hlabels hg' hl hguarded
  rw [hsettles.start] at ha
  rw [hsettles.stop] at hb
  cases ha.unique hstart
  cases hb.unique hstop
  obtain ⟨front, hfront⟩ := hguarded.front
  have hlen : 0 < g'.front.length := by
    rw [hfront, List.length_append]
    exact Nat.succ_pos _
  have hcopy := Parts.copy_eq hg'
  obtain rfl : i = j := by
    rcases Nat.lt_trichotomy i j with hlt | heq | hlt
    · have := Parts.copy_lt_offset hg hlt
      omega
    · exact heq
    · have := Parts.copy_lt_offset hg' hlt
      have : w.offset i ≤ w.copy i := Nat.le_add_right _ _
      omega
  rw [hg] at hg'
  cases hg'
  refine ⟨l, hl, hguarded.back, raise_handled ?_ (t := t) ?_⟩
  · rw [htable, List.append_assoc, List.find?_append, hfind, Option.some_or]
  · rw [hsettles.handler]
    exact hhandler

/-- An exception at the copy of an instruction goes where it goes without reports. -/
theorem raise_at_copy (hi : i < given.insns.length)
    (hlocals : ∀ n < bound, Word.Alike ρ (u.locals n) (v.locals n)) (hb : N.Beside x y ρ [])
    (ho : ρ o o') (hthrowable : P.isA x o throwableClass = true) : ∃ a,
    Stage.Comes P (hw.stage hlabels) (P.raise q woven (w.copy i) v y o') a ∧
      Keeping N w bound ρ (P.raise p given i u x o) a := by
  obtain ⟨g, hg⟩ : ∃ g, w.segments[i]? = some g :=
    ⟨_, List.getElem?_eq_getElem (hw.segments_length ▸ hi)⟩
  have hcopy := Parts.copy_eq hg
  have hnext := offset_next hg
  by_cases hranges : g.ranges = []
  · refine hw.raise_within hlabels hm hpq hi (by omega) (by omega) (fun g' hg' hr => ?_) hlocals hb
      ho hthrowable
    rw [hg] at hg'
    cases hg'
    exact absurd hranges hr
  · have hthrowable' : P.isA y o' throwableClass = true := by rw [← N.isA hb ho, hthrowable]
    obtain ⟨l, hl, hguarded, hraise⟩ := hw.raise_guarded hlabels hg hranges hthrowable' (u := v)
    rw [hraise]
    have hback := hw.has_back hlabels hg
    have hskips := fun j hj => hw.skips_back hlabels hg (j := j) hj
    obtain ⟨y1, hreport, hb1⟩ := callThrowsReport_does N (σ := hw.stage hlabels) (τ := [])
      (ν := v.locals) s hb ho (l := l + 4 + s.callReturnLabels)
      (Nat.le_add_right_of_le (Nat.le_add_right_of_le hl))
    rw [hguarded] at hback
    have hlen : g.back.length = (s.callReturnReport (l + 4)).length +
        (s.callThrowsReport (l + 4 + s.callReturnLabels)).length + 5 := by
      rw [hguarded]
      simp only [guardedBack, List.length_cons, List.length_append, List.length_nil]
      omega
    generalize hn : (s.callReturnReport (l + 4)).length = n at *
    generalize hn' : (s.callThrowsReport (l + 4 + s.callReturnLabels)).length = n' at *
    -- the label of the handler, the report and the instruction that throws again
    have hat : (hw.stage hlabels).Has (w.copy i + 1 + (n + 2)) (.place (l + 2) ::
        (s.callThrowsReport (l + 4 + s.callReturnLabels) ++ [Template.op Op.athrow])) := by
      intro j t hj
      rw [Nat.add_assoc]
      refine hback (n + 2 + j) t ?_
      have hjlt := (List.getElem?_eq_some_iff.1 hj).1
      have hsplit : s.guardedBack l = (.place (l + 1) :: (s.callReturnReport (l + 4) ++
          [Template.jump Op.goto (l + 3)])) ++ ((.place (l + 2) ::
          (s.callThrowsReport (l + 4 + s.callReturnLabels) ++ [Template.op Op.athrow])) ++
          [Template.place (l + 3)]) := by
        simp only [guardedBack, List.cons_append, List.append_assoc, List.nil_append]
      rw [hsplit, List.getElem?_append_right (by simp [hn]), List.getElem?_append_left (by simp [hn] at hjlt ⊢; omega)]
      rw [← hj]
      congr 1
      simp [hn]
    have hthrow := hat.tail.append_right.head
    rw [hn'] at hthrow
    have hthrowable1 : P.isA y1 o' throwableClass = true := by rw [← N.isA hb1 ho, hthrowable]
    obtain ⟨a, hcomes, hkeeping⟩ := hw.raise_within hlabels hm hpq hi (u := u)
      (v := ⟨y1, [.object o'], v.locals⟩) (k := w.copy i + 1 + (n + 2) + 1 + n') (by omega)
      (by omega) (fun _ _ _ => by omega) hlocals hb1 ho hthrowable
    refine ⟨a, (passes_next hat.head (hskips _ (by omega)) (goesOn_place _)
      (hreport _ hat.tail.append_left fun j hj => ?_)).comes (comes_throw ?_ ?_ hthrowable1 ?_), hkeeping⟩
    · have := hskips (n + 2 + (1 + j)) (by omega)
      simpa only [Nat.add_assoc] using this
    · rw [hn']
      exact hthrow
    · have := hskips (n + 2 + (1 + n')) (by omega)
      rw [hn']
      simpa only [Nat.add_assoc] using this
    · rw [hn']
      exact hcomes

end Raising

/-! ## Instructions -/

/-- What a method has to keep to for the reports not to matter: its operations are its own, it uses
its local variables only, and it returns with the opcode of its return type. -/
structure Keeps (own : Operation → Prop) (p : Pool) (given : Body) (returnType : JavaType) :
    Prop where
  own : ∀ insn ∈ given.insns, ∀ op, Operation.ofInsn p insn = some op → own op
  slots : ∀ insn ∈ given.insns, insn.SlotsBelow given.maxLocals.toNat
  returns : ∀ op, .simple op ∈ given.insns → Op.isReturn op = true → op = returnType.returnOpcode

/-- What an instruction has to keep to. -/
def KeptBy (own : Operation → Prop) (p : Pool) (given : Body) (returnType : JavaType) (insn : Insn) :
    Prop :=
  (∀ op ∈ Operation.ofInsn p insn, own op) ∧ insn.SlotsBelow given.maxLocals.toNat ∧
    (insn.opcode.any Op.isReturn = true → insn = .simple returnType.returnOpcode)

theorem keeps_of_all {own : Operation → Prop} {p : Pool} {given : Body} {returnType : JavaType}
    (h : ∀ insn ∈ given.insns, KeptBy own p given returnType insn) : Keeps own p given returnType where
  own insn hinsn := (h insn hinsn).1
  slots insn hinsn := (h insn hinsn).2.1
  returns op hinsn hop := by
    have := (h _ hinsn).2.2 hop
    cases this
    rfl

instance {own : Operation → Prop} [DecidablePred own] (p : Pool) (given : Body)
    (returnType : JavaType) (insn : Insn) : Decidable (KeptBy own p given returnType insn) :=
  inferInstanceAs (Decidable (_ ∧ _ ∧ _))

section Instructions

variable (hw : WovenFrom s q given 0 w woven) (hlabels : LabelsBelow given)
  (hm : m.Of given context p h) (hpq : p.Within q) (hkeeps : Keeps own p given s.returnType)
  (hbound : given.maxLocals.toNat ≤ bound) {i : Nat} {u u' : P.Store}
include hw hlabels hm hpq hkeeps hbound

/-- An instruction and its segment do the same. -/
theorem segment_follows (hu : N.Alike bound ρ u u')
    (hstuck : P.step p given i u ≠ .stuck) : ∃ u1,
    Passes P (hw.stage hlabels) (w.offset i) u' (w.copy i) u1 ∧
      N.Alike bound ρ u u1 ∧ ∃ a,
        Stage.Comes P (hw.stage hlabels) (P.step q woven (w.copy i) u1) a ∧
          Keeping N w bound ρ (P.step p given i u) a := by
  cases hi : given.insns[i]? with
  | none =>
    exfalso
    apply hstuck
    simp only [step, hi]
  | some insn =>
    have hmem := List.mem_of_getElem? hi
    have hreturn : ∀ op, insn = .simple op → Op.isReturn op = true →
        ∃ value rest, u'.stack = value ++ rest ∧
          ((s.returnType = .void ∧ value = []) ∨ Word.Fits s.returnType value) := by
      rintro op rfl hop
      cases hvalue : Word.returned op u.stack with
      | none =>
        exfalso
        apply hstuck
        simp only [step, hi, act, simple, hop, if_true, hvalue]
      | some value =>
        obtain ⟨value', hvalue', -⟩ := Word.returned_alike hu.stack hvalue
        obtain ⟨rest, hrest⟩ := Word.returned_prefix hvalue'
        rw [hkeeps.returns op hmem hop] at hvalue'
        exact ⟨value', rest, hrest, Word.returned_fits hvalue'⟩
    obtain ⟨y1, hfront, hb1⟩ := hw.front_passes hlabels hi hu.world (ν := u'.locals) hreturn
    have hu1 : N.Alike bound ρ u ⟨y1, u'.stack, u'.locals⟩ :=
      ⟨hb1, hu.stack, hu.locals⟩
    refine ⟨_, hfront, hu1, ?_⟩
    have hcopy := hw.insn_at_copy hi
    have hfollows := act_follows hu1 hpq (hkeeps.own insn hmem) ((hkeeps.slots insn hmem).mono hbound)
    generalize hact : P.act p insn u = action at hfollows
    generalize hact' : P.act q insn ⟨y1, u'.stack, u'.locals⟩ = action' at hfollows
    cases hfollows with
    | @next t t' ρ1 hρ ht =>
      obtain ⟨y2, hback, hb2⟩ := hw.back_passes hlabels hi ht.world (τ := t'.stack) (ν := t'.locals)
      have hon : insn.isTerminal = false := by
        by_contra hterminal
        rw [Bool.not_eq_false] at hterminal
        apply hstuck
        simp only [step, hi, hact, hterminal, if_true]
      have hgiven : P.step p given i u = .running (i + 1) t := by
        simp only [step, hi, hact, hon, Bool.false_eq_true, if_false]
      have hwoven : P.step q woven (w.copy i) ⟨y1, u'.stack, u'.locals⟩ =
          .running (w.copy i + 1) t' := by
        simp only [step, hcopy, hact', hon, Bool.false_eq_true, if_false]
      rw [hgiven, hwoven]
      exact ⟨_, hback.comes .refl, .running hρ ⟨hb2, ht.stack, ht.locals⟩⟩
    | @jump l t t' ρ1 hρ ht =>
      cases hl : (labelPositions given.insns)[l]? with
      | none =>
        exfalso
        apply hstuck
        simp only [step, hi, hact, hl]
      | some j =>
        have hplace := labelPositions_eq_some.2 (hw.lastPlace hlabels (labelPositions_eq_some.1 hl))
        have hgiven : P.step p given i u = .running j t := by simp only [step, hi, hact, hl]
        have hwoven : P.step q woven (w.copy i) ⟨y1, u'.stack, u'.locals⟩ =
            .running (w.offset j) t' := by simp only [step, hcopy, hact', hplace]
        rw [hgiven, hwoven]
        exact ⟨_, .refl, .running hρ ht⟩
    | @throw x y o o' ρ1 hρ hb ho =>
      rw [step_throw hi hact, step_throw hcopy hact']
      obtain ⟨a, hcomes, hkeeping⟩ := hw.raise_at_copy hlabels hm hpq
        (List.getElem?_eq_some_iff.1 hi).1 (u := u) (v := ⟨y1, u'.stack, u'.locals⟩)
        (fun k hk => (hu.locals k hk).mono hρ) hb ho (throwable_of_throws hact)
      exact ⟨a, hcomes, hkeeping.mono hρ⟩
    | @leave value value' x y ρ1 hρ hb hv =>
      have hgiven : P.step p given i u = .returned value x := by simp only [step, hi, hact]
      have hwoven : P.step q woven (w.copy i) ⟨y1, u'.stack, u'.locals⟩ = .returned value' y := by
        simp only [step, hcopy, hact']
      rw [hgiven, hwoven]
      exact ⟨_, .refl, .returned hρ hb hv⟩
    | stuck =>
      exfalso
      apply hstuck
      simp only [step, hi, hact]

end Instructions

end WovenFrom

end Weave

end Interpose
