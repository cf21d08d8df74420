import Interpose.Proofs.Code.Balance
import Interpose.Proofs.Code.Pruning
import Interpose.Proofs.Weave.Heights
import Interpose.Proofs.Weave.Round
import Interpose.Proofs.Weave.Stretches
/-!
# Balanced weaving

Woven code hangs together if the method does (`WovenFrom.balanced`). The height of the stack at a copy is
the one that the method has there, and between two copies it is the one that is counted along reports
(`WovenFrom.Counted`): what is woven takes away what it puts on the stack, and the handlers in it start with
the thrown object alone.

Result:
* `method_balanced`: weaving a method fails for reasons of types and sizes only.
-/

namespace Interpose

/-! ## Effects -/

/-- What is made of an answer is made of the answer of what answers no less. -/
theorem bind_toOption_mono {ε α β : Type} {x y : Except ε α} {f : α → Option β} {b : β}
    (hxy : ∀ a, x = .ok a → y = .ok a) (h : (x.toOption >>= f) = some b) : (y.toOption >>= f) = some b := by
  cases x with
  | error e => cases h
  | ok a =>
    rw [hxy a rfl]
    exact h

section Within

variable {p q : Pool} (hpq : p.Within q) {index : UInt16}
include hpq

theorem Pool.loadedSlots_within {n : Nat} (h : p.loadedSlots index = some n) :
    q.loadedSlots index = some n := by
  unfold loadedSlots at h ⊢
  cases hc : p.get index with
  | error e =>
    rw [hc] at h
    cases h
  | ok c =>
    rw [hc] at h
    rw [hpq index c hc]
    cases c with
    | dynamic bootstrap nat => exact bind_toOption_mono (fun _ => hpq.nameAndType) h
    | _ => exact h

/-- What an instruction takes and pushes does not depend on what is added to the pool. -/
theorem Insn.effect_within {insn : Insn} {e : SlotEffect} (h : insn.effect p = some e) :
    insn.effect q = some e := by
  cases insn with
  | field op index => exact bind_toOption_mono (fun _ => hpq.memberRef) h
  | method op index => exact bind_toOption_mono (fun _ => hpq.memberRef) h
  | dynamic index =>
    unfold effect at h ⊢
    dsimp only at h ⊢
    cases hc : p.get index with
    | error _ =>
      rw [hc] at h
      cases h
    | ok c =>
      rw [hc] at h
      rw [hpq index c hc]
      cases c with
      | invokeDynamic bootstrap nat => exact bind_toOption_mono (fun _ => hpq.nameAndType) h
      | _ => exact h
  | ldc index =>
    obtain ⟨n, hn, rfl⟩ := Option.map_eq_some_iff.1 h
    exact Option.map_eq_some_iff.2 ⟨n, Pool.loadedSlots_within hpq hn, rfl⟩
  | _ => exact h

end Within

/-! ## Paths -/

theorem ControlPath.reached {pool : Pool} {b : Body} {i n : Nat} (h : ControlPath pool b i n) : b.Reached i := by
  induction h with
  | start => exact .entry
  | next _ hinsn _ hon ih => exact .step ih (.next hinsn hon rfl)
  | jump _ hinsn _ hl hj ih => exact .step ih (.jump hinsn hl hj)
  | thrown _ hinsn hreal ht hstart hstop hlo hhi hj ih =>
    exact .step ih (.thrown hinsn hreal ht ⟨_, _, hstart, hstop, hlo, hhi⟩ hj)

theorem Analysis.path_of_leads {b : Body} {context : MethodContext} {pool : Pool} {h : Hierarchy} {a : Analysis}
    (ha : analyze b context pool h = .ok a) {i : Nat} (hi : b.Reached i) : ∃ n, ControlPath pool b i n := by
  obtain ⟨m, -, hm, -⟩ := analyze_eq_ok ha
  exact path_of_reached ha hm ((reached_iff hm).2 hi)

/-! ## Runs of templates -/

open Template in
/-- From a template control comes to templates of the same run, and its height is the one that is
listed there. -/
theorem Stage.counted (σ : Stage) {first : Nat} {ts : List Template} {hs : List Nat} (hat : σ.Has first ts)
    (hheights : Heights σ.pool ts hs) (hfresh : ∀ l : Nat, .place l ∈ ts → σ.bound ≤ l) {j n : Nat}
    (hn : hs[j]? = some n) (hj : j < ts.length) {insn : Insn} (hinsn : σ.body.insns[first + j]? = some insn) :
    ∃ e : SlotEffect, insn.effect σ.pool = some e ∧ e.taken ≤ n ∧
      (insn.isTerminal = false → hs[j + 1]? = some (n - e.taken + e.pushed)) ∧
      ∀ l ∈ insn.targets, ∀ k, LastPlace σ.body.insns l k →
        ∃ i < ts.length, k = first + i ∧ hs[i]? = some (n - e.taken + e.pushed) := by
  have ht := List.getElem?_eq_getElem hj
  obtain ⟨insn', hinsn', hsettles⟩ := forall₂_getElem? σ.settled (hat j _ ht)
  cases hinsn.symm.trans hinsn'
  obtain ⟨e, he, htaken, hnext, htargets⟩ := hheights.steps j _ insn n ht hsettles hn
  refine ⟨e, he, htaken, hnext, fun l hl k hk => ?_⟩
  obtain ⟨i, hplace, hi⟩ := htargets l hl
  have hbound := hfresh l (List.mem_of_getElem? hplace)
  exact ⟨i, (List.getElem?_eq_some_iff.1 hplace).1, hk.unique (σ.placed _ l hbound (hat i _ hplace)), hi⟩

theorem WeaveSite.throwsReport_leaves (s : WeaveSite) (thrown : UInt16) (l : Label) :
    ∃ ts, s.throwsReport thrown l = ts ++ [Template.op Op.athrow] :=
  ⟨Marker.opening ++ ([Template.var Op.astore thrown, .var Op.aload thrown] ++ (s.report .throws l ++
    (Marker.closing ++ [Template.var Op.aload thrown]))), by simp [throwsReport]⟩

namespace Weave

open WeaveSite Template

namespace WovenFrom

variable {s : WeaveSite} {p q : Pool} {given woven : Body} {entry : Nat} {w : Parts}

section Tables

variable (hw : WovenFrom s q given entry w woven) (hne : w.segments ≠ []) (htidy : given.Tidy)
include hw hne htidy

omit hne in
/-- Labels that templates lead to are placed. -/
theorem placed_of_enclosed {first : Nat} {ts : List Template} (hat : (hw.watched htidy.labels).Has first ts)
    (hclosed : Enclosed ts) (hfresh : ∀ l : Nat, .place l ∈ ts → given.nextLabel ≤ l) {t : Template}
    (ht : t ∈ ts) {l : Label} (hl : l ∈ t.leads) : ∃ j, LastPlace woven.insns l j := by
  have hplace := hclosed t ht l hl
  obtain ⟨j, hj⟩ := List.mem_iff_getElem?.1 hplace
  exact ⟨_, hw.lastPlace_fresh htidy.labels (hfresh l hplace) (hat j _ hj)⟩

/-- All labels that woven code may lead to are placed. -/
theorem placed {insn : Insn} (hinsn : insn ∈ woven.insns) {l : Label} (hl : l ∈ insn.targets) :
    ∃ j, LastPlace woven.insns l j := by
  obtain ⟨k, hk⟩ := List.mem_iff_getElem?.1 hinsn
  obtain ⟨t, ht, hsettles⟩ := hw.code_of_insn hk
  rw [hsettles.targets] at hl
  rcases Parts.place_cases hne ht with ⟨i, g, hg, -, hwhere⟩ | ⟨-, rfl | hmem⟩
  · have hfresh := (hw.piece_surrounded hg).fresh
    obtain ⟨hfront, hback⟩ := hw.has_around hne htidy.labels hg
    obtain ⟨hin, hin'⟩ := hw.piece_enclosed hg
    rcases hwhere with ⟨-, hmem⟩ | ⟨-, rfl⟩ | ⟨-, hmem⟩
    · exact hw.placed_of_enclosed htidy hfront hin (fun l hl => hfresh l (.inl hl)) hmem hl
    · obtain ⟨j, hj⟩ := htidy.closed.1 _ (List.mem_of_getElem? (hw.insn_of_piece hg)) l
        ((Insn.mem_targets_iff _).1 hl)
      exact ⟨_, hw.lastPlace_spot hne htidy.labels hj⟩
    · exact hw.placed_of_enclosed htidy hback hin' (fun l hl => hfresh l (.inr hl)) hmem hl
  · cases hl
  · exact hw.placed_of_enclosed htidy (hw.has_finish htidy.labels) hw.finish_enclosed
      (fun _ => hw.fresh_finish) hmem hl

/-- Every protected range of woven code holds something that takes bytes. -/
theorem ranges {context : MethodContext} {h : Hierarchy} {a : Analysis} (ha : analyze given context p h = .ok a)
    (henters : Enters given entry) {t : TryCatch} (ht : t ∈ woven.tryCatch) :
    (∃ k insn, woven.insns[k]? = some insn ∧ insn.isPseudo = false ∧ t.Covers woven.insns k) ∧
      ∃ k, LastPlace woven.insns t.handler k := by
  have hlabels := htidy.labels
  obtain ⟨calls, own, htable, hcalls, hown⟩ := hw.tryCatch
  rw [htable, List.mem_append, List.mem_append] at ht
  rcases ht with (ht | ht) | ht
  · obtain ⟨r, hr, hrange⟩ := (mem_forall₂ hcalls).2 _ ht
    obtain ⟨i, g, l, op, index, hg, hat, hl, hguarded, rfl⟩ := hw.range_of_mem hr
    have hcopy := hw.insn_at_spot hne hat
    have hcovers := (hw.range_covers_iff hne hlabels hg hl hguarded hrange hcopy rfl).2 rfl
    rw [hrange.handler]
    exact ⟨⟨_, _, hcopy, rfl, hcovers⟩, _, (hw.range_places hne hlabels hg hl hguarded).2.2.2⟩
  · obtain ⟨⟨i, insn, hinsn, hreal, hcovers⟩, j, hj⟩ := (Analysis.balanced_of_analyze ha).ranges t ht
    have hlt := (List.getElem?_eq_some_iff.1 hinsn).1
    obtain ⟨g, hg⟩ := hw.piece_of_lt hlt
    obtain ⟨x, y, hx, hy, -⟩ := id hcovers
    have hcovers' := (hw.covers_from_spot hne hlabels hx hy hlt (Nat.le_refl _)
      (Parts.spot_lt_edge hg (Nat.lt_succ_self i))).2 hcovers
    exact ⟨⟨_, insn, hw.insn_at_spot hne hinsn, hreal, hcovers'⟩, _, hw.lastPlace_spot hne hlabels hj⟩
  · -- control goes on from the entry point to something that takes bytes
    obtain ⟨hwants, hrange⟩ := range_of_own hown ht
    have hin (j : Nat) (hj : given.Reached j) : j < given.insns.length := by
      obtain ⟨n, hn⟩ := Analysis.path_of_leads ha hj
      obtain ⟨insn, -, -, hinsn, -⟩ := Analysis.path_counted ha hn
      exact (List.getElem?_eq_some_iff.1 hinsn).1
    have hentry : given.Reached entry := by
      rcases henters with rfl | ⟨i, insn, rfl, hinsn, hon, hreached, -⟩
      · exact .entry
      · exact .step hreached (.next hinsn hon rfl)
    obtain ⟨k, insn, hle, hinsn, hreal⟩ := hentry.real_behind hin
    have hk := hw.pieces_length ▸ (List.getElem?_eq_some_iff.1 hinsn).1
    have hprologue : w.prologue.length ≤ k := by
      rw [hw.rebuilt.prologue]
      exact Nat.le_trans (List.length_take_le _ _) hle
    have hspot := Parts.spot_lt_edge (w := w) (List.getElem?_eq_getElem hk) hk
    rw [Parts.edge_pieces hne] at hspot
    have hcovers := (hw.own_covers_iff hlabels hrange).2
      ⟨Nat.le_of_lt (Parts.entrance_lt_spot hne hprologue hk), hspot⟩
    rw [hrange.handler]
    exact ⟨⟨_, insn, hw.insn_at_spot hne hinsn, hreal, hcovers⟩, _, hw.handler_place hlabels hwants⟩

end Tables

/-- What is woven in front of a copy or behind it, where control comes on a path of the method, with the
heights in front of the templates. -/
inductive Run (p q : Pool) (given : Body) (w : Parts) : Nat → List Template → List Nat → Prop
  | front {i g n hs} : w.pieces[i]? = some g → ControlPath p given i n → Heights q g.front hs →
    hs[g.front.length]? = some n → Run p q given w (w.edge i) g.front hs
  | back {i g n hs} : w.pieces[i]? = some g → ControlPath p given (i + 1) n → Heights q g.back hs →
    hs[g.back.length]? = some n → Run p q given w (w.spot i + 1) g.back hs

/-- Control can come to a place in woven code with so many slots on the stack: to a copy, to what is woven
around it, or to the handler of the method. -/
inductive Counted (p q : Pool) (given : Body) (w : Parts) : Nat → Nat → Prop
  | copy {i n} : ControlPath p given i n → Counted p q given w (w.spot i) n
  | run {first ts hs j n} : Run p q given w first ts hs → j < ts.length → hs[j]? = some n →
    Counted p q given w (first + j) n
  | finish {hs j n} : Heights q w.finish hs → j < w.finish.length → hs[j]? = some n →
    Counted p q given w (w.exit + 1 + j) n

section Counts

variable (hw : WovenFrom s q given entry w woven)
include hw

theorem before_counts (hvoid : ∀ t ∈ s.context.descriptor.parameters, t ≠ .void) (n : Nat) :
    CountsAll q w.before n n := by
  rw [hw.rebuilt.before]
  split
  · exact s.startReport_counts hvoid _ _
  · exact .nil

/-- The handler of the method starts with the thrown object, and throws it again. -/
theorem finish_counts (hwants : s.wants .throws = true) (n : Nat) : CountsAll q w.finish 1 n := by
  rw [hw.rebuilt.finish, if_pos hwants]
  exact .cons rfl (counts_place _) (s.throwsReport_counts (n := 0) _ _)

/-- Control does not go on behind the handler of the method. -/
theorem finish_leaves {t : Template} {j : Nat} (hj : j + 1 = w.finish.length) (ht : w.finish[j]? = some t) :
    t.onward = false := by
  have last {ts : List Template} (hj : j + 1 = (ts ++ [Template.op Op.athrow]).length)
      (ht : (ts ++ [Template.op Op.athrow])[j]? = some t) : t.onward = false := by
    rw [List.length_append, List.length_singleton] at hj
    obtain rfl : j = ts.length := Nat.succ.inj hj
    rw [List.getElem?_append_right (Nat.le_refl _), Nat.sub_self] at ht
    cases ht
    rfl
  rw [hw.rebuilt.finish] at hj ht
  split at ht
  · rw [if_pos ‹_›] at hj
    obtain ⟨ts, hts⟩ := s.throwsReport_leaves _ _
    rw [hts, ← List.cons_append] at hj ht
    exact last hj ht
  · cases ht

variable {context : MethodContext} {h : Hierarchy} {a : Analysis} (ha : analyze given context p h = .ok a)
  (hvoid : ∀ t ∈ s.context.descriptor.parameters, t ≠ .void)
  (hreturns : ∀ op, .simple op ∈ given.insns → Op.isReturn op = true → op = s.returnType.returnOpcode)
include ha hvoid hreturns

/-- What is woven around an instruction on a path of the method leaves as many slots as it finds. -/
theorem piece_counts {i n : Nat} {g : Segment} (hg : w.pieces[i]? = some g) (hi : ControlPath p given i n)
    (n' : Nat) : CountsAll q g.front n n ∧ CountsAll q g.back n' n' := by
  obtain ⟨hinsn, ⟨-, he⟩ | ⟨-, pos, l, m, -, he⟩⟩ := hw.piece_cases hg
  · rw [he]
    exact ⟨.nil, .nil⟩
  · have hreturn (op : Opcode) (hop : g.insn = .simple op) (hreturn : Op.isReturn op = true) :
        s.returnType.slots ≤ n := by
      obtain ⟨insn, -, e, hat, -, -, heffect, htaken, -⟩ := Analysis.path_counted ha hi
      cases hinsn.symm.trans hat
      rw [hop, hreturns op (hop ▸ List.mem_of_getElem? hinsn) hreturn] at heffect
      cases (s.returnType.effect_returnOpcode).symm.trans heffect
      exact htaken
    have hcounts : CountsAll q (s.segment pos l m g.insn).front n n ∧
        CountsAll q (s.segment pos l m g.insn).back n' n' := s.segment_counts pos l m hreturn
    rw [he]
    refine ⟨CountsAll.append ?_ hcounts.1, hcounts.2⟩
    split
    · exact (hw.before_counts hvoid n).append (.cons rfl (counts_place _) .nil)
    · exact .nil

/-- Control comes to the piece of an instruction with the height that the method has there. -/
theorem counted_edge {i n : Nat} (hi : ControlPath p given i n) : Counted p q given w (w.edge i) n := by
  obtain ⟨insn, -, -, hinsn, -⟩ := Analysis.path_counted ha hi
  obtain ⟨g, hg⟩ := hw.piece_of_lt (List.getElem?_eq_some_iff.1 hinsn).1
  obtain ⟨hs, hheights, h0, hlast⟩ := (hw.piece_counts ha hvoid hreturns hg hi n).1.heights
  rcases Nat.eq_zero_or_pos g.front.length with hnil | hpos
  · rw [show w.edge i = w.spot i by rw [Parts.spot_eq hg, hnil, Nat.add_zero]]
    exact .copy hi
  · exact .run (.front hg hi hheights hlast) hpos h0

/-- Behind an instruction that goes on control comes to what is woven there. -/
theorem run_behind {i n n' : Nat} {g : Segment} (hg : w.pieces[i]? = some g) (hi : ControlPath p given i n)
    (hnext : ControlPath p given (i + 1) n') :
    ∃ hs, Run p q given w (w.spot i + 1) g.back hs ∧ hs[0]? = some n' := by
  obtain ⟨hs, hheights, h0, hlast⟩ := (hw.piece_counts ha hvoid hreturns hg hi n').2.heights
  exact ⟨hs, .back hg hnext hheights hlast, h0⟩

/-- Behind what is woven in front of a copy stands the copy, and behind what is woven behind it the next
piece. -/
theorem counted_run {first j n : Nat} {ts : List Template} {hs : List Nat} (hr : Run p q given w first ts hs)
    (hj : j ≤ ts.length) (hn : hs[j]? = some n) : Counted p q given w (first + j) n := by
  rcases Nat.lt_or_eq_of_le hj with hlt | rfl
  · exact .run hr hlt hn
  · cases hr with
    | front hg hi _ hlast =>
      rw [← Parts.spot_eq hg, ← Option.some.inj (hlast.symm.trans hn)]
      exact .copy hi
    | back hg hnext _ hlast =>
      rw [← Parts.edge_next hg, ← Option.some.inj (hlast.symm.trans hn)]
      exact hw.counted_edge ha hvoid hreturns hnext

end Counts

section Steps

variable (hw : WovenFrom s q given entry w woven) (hne : w.segments ≠ []) (htidy : given.Tidy)
  (hpq : p.Within q) {context : MethodContext} {h : Hierarchy} {a : Analysis}
  (ha : analyze given context p h = .ok a)
  (hvoid : ∀ t ∈ s.context.descriptor.parameters, t ≠ .void)
  (hreturns : ∀ op, .simple op ∈ given.insns → Op.isReturn op = true → op = s.returnType.returnOpcode)

include hw hne htidy

/-- Where a run stands, and what labels it has. -/
theorem has_run {first : Nat} {ts : List Template} {hs : List Nat} (hr : Run p q given w first ts hs) :
    (hw.watched htidy.labels).Has first ts ∧ Heights q ts hs ∧
      ∀ l : Nat, .place l ∈ ts → given.nextLabel ≤ l := by
  have fresh {i : Nat} {g : Segment} (hg : w.pieces[i]? = some g) := (hw.piece_surrounded hg).fresh
  cases hr with
  | front hg _ hheights _ =>
    exact ⟨(hw.has_around hne htidy.labels hg).1, hheights, fun l hl => fresh hg l (.inl hl)⟩
  | back hg _ hheights _ =>
    exact ⟨(hw.has_around hne htidy.labels hg).2, hheights, fun l hl => fresh hg l (.inr hl)⟩

include ha in
/-- What stands where control comes. -/
theorem counted_insn {k n : Nat} (hk : Counted p q given w k n) : ∃ insn, woven.insns[k]? = some insn := by
  cases hk with
  | copy hi =>
    obtain ⟨insn, -, -, hat, -⟩ := Analysis.path_counted ha hi
    exact ⟨insn, hw.insn_at_spot hne hat⟩
  | run hr hlt hn =>
    obtain ⟨hat, -⟩ := hw.has_run hne htidy hr
    exact (hw.insn_of_code (hat _ _ (List.getElem?_eq_getElem hlt))).imp fun _ => And.left
  | finish hheights hlt hn =>
    have hat := hw.has_finish htidy.labels
    exact (hw.insn_of_code (hat _ _ (List.getElem?_eq_getElem hlt))).imp fun _ => And.left

section Counting

variable {k n : Nat} {insn : Insn} (hk : Counted p q given w k n) (hinsn : woven.insns[k]? = some insn)
include hpq ha hk hinsn

/-- What stands where control comes finds what it takes, and a jump leads to where the height behind it is
counted. -/
theorem counted_targets : ∃ e : SlotEffect, insn.effect q = some e ∧ e.taken ≤ n ∧
    ∀ l ∈ insn.targets, ∀ j, LastPlace woven.insns l j →
      Counted p q given w j (n - e.taken + e.pushed) := by
  cases hk with
  | copy hi =>
    obtain ⟨insn', -, e, hat, -, -, heffect, htaken, -⟩ := Analysis.path_counted ha hi
    cases hinsn.symm.trans (hw.insn_at_spot hne hat)
    refine ⟨e, Insn.effect_within hpq heffect, htaken, fun l hl j hj => ?_⟩
    have hbelow := htidy.target_below (List.mem_of_getElem? hat) ((Insn.mem_targets_iff _).1 hl)
    obtain ⟨x, rfl, hx⟩ := hw.lastPlace_of_spot hne hbelow hj
    exact .copy (.jump hi hat heffect hl hx)
  | run hr hlt hn =>
    obtain ⟨hat, hheights, hfresh⟩ := hw.has_run hne htidy hr
    obtain ⟨e, he, htaken, -, htargets⟩ := Stage.counted _ hat hheights hfresh hn hlt hinsn
    refine ⟨e, he, htaken, fun l hl j hj => ?_⟩
    obtain ⟨i, hi, rfl, hm⟩ := htargets l hl j hj
    exact .run hr hi hm
  | finish hheights hlt hn =>
    obtain ⟨e, he, htaken, -, htargets⟩ := Stage.counted _ (hw.has_finish htidy.labels) hheights
      (fun _ => hw.fresh_finish) hn hlt hinsn
    refine ⟨e, he, htaken, fun l hl j hj => ?_⟩
    obtain ⟨i, hi, rfl, hm⟩ := htargets l hl j hj
    exact .finish hheights hi hm

include hvoid hreturns

/-- Where control goes on the height behind the instruction is counted. -/
theorem counted_next {e : SlotEffect} (he : insn.effect q = some e) (hon : insn.isTerminal = false) :
    Counted p q given w (k + 1) (n - e.taken + e.pushed) := by
  cases hk with
  | @copy i n hi =>
    obtain ⟨insn', -, e', hat, -, -, heffect, -⟩ := Analysis.path_counted ha hi
    cases hinsn.symm.trans (hw.insn_at_spot hne hat)
    cases he.symm.trans (Insn.effect_within hpq heffect)
    obtain ⟨g, hg⟩ := hw.piece_of_lt (List.getElem?_eq_some_iff.1 hat).1
    obtain ⟨hs, hr, h0⟩ := hw.run_behind ha hvoid hreturns hg hi (.next hi hat heffect hon)
    exact hw.counted_run ha hvoid hreturns (j := 0) hr (Nat.zero_le _) h0
  | @run _ _ _ j _ hr hlt hn =>
    obtain ⟨hat, hheights, hfresh⟩ := hw.has_run hne htidy hr
    obtain ⟨e', he', -, hnext, -⟩ := Stage.counted _ hat hheights hfresh hn hlt hinsn
    cases he.symm.trans he'
    exact hw.counted_run ha hvoid hreturns (j := j + 1) hr hlt (hnext hon)
  | @finish hs j n hheights hlt hn =>
    have hat := hw.has_finish htidy.labels
    obtain ⟨e', he', -, hnext, -⟩ := Stage.counted _ hat hheights (fun _ => hw.fresh_finish) hn hlt hinsn
    cases he.symm.trans he'
    refine .finish hheights (Nat.lt_of_le_of_ne hlt fun hlast => ?_) (hnext hon)
    obtain ⟨t, ht, hsettles⟩ := hw.code_of_insn hinsn
    have hthere := List.getElem?_eq_getElem hlt
    cases ht.symm.trans (hat j _ hthere)
    rw [hsettles.isTerminal, hw.finish_leaves hlast hthere] at hon
    cases hon

end Counting

variable (henters : Enters given entry)
  (hbefore : ∀ i insn, entry = i + 1 → given.insns[i]? = some insn → insn.isPseudo = false)
include ha hvoid hreturns henters hbefore

/-- A handler starts with the thrown object. -/
theorem counted_thrown {k j n : Nat} {insn : Insn} {t : TryCatch} (hk : ControlPath q woven k n)
    (hinsn : woven.insns[k]? = some insn) (hreal : insn.isPseudo = false) (ht : t ∈ woven.tryCatch)
    (hcovers : t.Covers woven.insns k) (hj : LastPlace woven.insns t.handler j) :
    Counted p q given w j 1 := by
  have path {i : Nat} (hin : w.InPiece i k) : given.Reached i :=
    hw.reached_of_piece hne htidy henters hbefore hk.reached hin
  obtain ⟨calls, own, htable, hcalls, hown⟩ := hw.tryCatch
  have hmem := ht
  rw [htable, List.mem_append, List.mem_append] at hmem
  rcases hmem with (hmem | hmem) | hmem
  · -- the handler of an invocation stands behind a branch past it
    obtain ⟨r, hr, hrange⟩ := (mem_forall₂ hcalls).2 _ hmem
    obtain ⟨i, g, l, op, index, hg, hat, hl, hguarded, rfl⟩ := hw.range_of_mem hr
    have hspot := (hw.range_covers_iff hne htidy.labels hg hl hguarded hrange hinsn hreal).1 hcovers
    obtain ⟨m, hi⟩ := Analysis.path_of_leads ha (path (hspot ▸ Parts.inPiece_spot hg))
    obtain ⟨insn', -, e, hat', -, -, heffect, -⟩ := Analysis.path_counted ha hi
    have hback : g.back[(s.callReturnReport (l + 4)).length + 1]? = some (.jump Op.goto (l + 3)) := by
      rw [hguarded.back, guardedBack, List.getElem?_cons_succ, List.getElem?_append_right (Nat.le_refl _),
        Nat.sub_self]
      rfl
    have hon : insn'.isTerminal = false := by
      have hown := hw.insn_of_piece hg
      cases hat'.symm.trans hown
      exact hw.piece_onward hg htidy.standard (List.ne_nil_of_mem (List.mem_of_getElem? hback))
    obtain ⟨hs, hrun, -⟩ := hw.run_behind ha hvoid hreturns hg hi (.next hi hat' heffect hon)
    have hplace := (hw.range_places hne htidy.labels hg hl hguarded).2.2.2
    rw [hrange.handler] at hj
    obtain rfl := hj.unique hplace
    have hheights := (hw.has_run hne htidy hrun).2.1
    have hlt : (s.callReturnReport (l + 4)).length + 2 < g.back.length := by
      rw [hguarded.back, guardedBack]
      simp only [List.length_cons, List.length_append]
      omega
    exact .run hrun hlt (hheights.handlers _ _ hback)
  · -- an entry of the method covers something on a path of the method
    obtain ⟨z, hz⟩ := hw.code_of_insn hinsn
    rcases Parts.place_cases hne hz.1 with ⟨i, g, hg, hin, -⟩ | ⟨hend, -⟩
    · obtain ⟨x, y, hx, hy, hyreal, a', b', ha', hb', hax, hxb⟩ :=
        hw.covered_of_inPiece hne htidy henters hbefore hmem hin (path hin) hinsn hreal hcovers
      obtain ⟨m, hpath⟩ := Analysis.path_of_leads ha hx
      have hbelow := htidy.table_below hmem
        (List.mem_cons_of_mem _ (List.mem_cons_of_mem _ (List.mem_singleton_self _)))
      obtain ⟨x', rfl, hx'⟩ := hw.lastPlace_of_spot hne hbelow hj
      exact .copy (.thrown hpath hy hyreal hmem ha' hb' hax hxb hx')
    · rw [Parts.edge_pieces hne] at hend
      exact absurd hcovers (hw.not_covered_behind hne htidy.labels htidy.closed hend hinsn hreal ht)
  · -- the handler of the method
    obtain ⟨hwants, hrange⟩ := range_of_own hown hmem
    rw [hrange.handler] at hj
    obtain rfl := hj.unique (hw.handler_place htidy.labels hwants)
    obtain ⟨hs, hheights, h0, -⟩ := (hw.finish_counts hwants 0).heights
    refine .finish hheights ?_ h0
    rw [hw.rebuilt.finish, if_pos hwants]
    exact Nat.succ_pos _

include hpq

/-- The height on a path of woven code is counted. -/
theorem counted_of_path {k n : Nat} (hk : ControlPath q woven k n) : Counted p q given w k n := by
  induction hk with
  | start =>
    have hstart := hw.counted_edge ha hvoid hreturns .start
    rwa [show w.edge 0 = 0 from rfl] at hstart
  | next _ hinsn he hon ih => exact hw.counted_next hne htidy hpq ha hvoid hreturns ih hinsn he hon
  | jump _ hinsn he hl hj ih =>
    obtain ⟨e, he', -, htargets⟩ := hw.counted_targets hne htidy hpq ha ih hinsn
    cases he.symm.trans he'
    exact htargets _ hl _ hj
  | thrown hk hinsn hreal ht hstart hstop hlo hhi hj _ =>
    exact hw.counted_thrown hne htidy ha hvoid hreturns henters hbefore hk hinsn hreal ht
      ⟨_, _, hstart, hstop, hlo, hhi⟩ hj

/-- Woven code hangs together if the method does. -/
theorem balanced : woven.Balanced q := by
  refine ⟨fun insn hinsn l hl => hw.placed hne htidy hinsn hl, fun t ht => hw.ranges hne htidy ha henters ht,
    fun k n hk => ?_⟩
  have hcounted := hw.counted_of_path hne htidy hpq ha hvoid hreturns henters hbefore hk
  obtain ⟨insn, hinsn⟩ := hw.counted_insn hne htidy ha hcounted
  obtain ⟨e, he, htaken, -⟩ := hw.counted_targets hne htidy hpq ha hcounted hinsn
  exact ⟨insn, e, hinsn, he, htaken⟩

end Steps

end WovenFrom

/-! ## Methods -/

section Methods

variable {p : Pool}

theorem ends_ofExcept {α : Type} {x : Except CodeError α} {post : α → Prop} (h : Balances post x) :
    Ends p (Assembly.ofExcept x) (fun a q => q = p ∧ x = .ok a ∧ post a) (fun e => ¬ e.IsStructural) := by
  cases x with
  | ok a => exact ⟨rfl, rfl, h⟩
  | error e => exact h

theorem ends_get : Ends p (get : Assembly Pool) (fun pool q => pool = p ∧ q = p)
    (fun e => ¬ e.IsStructural) :=
  ⟨rfl, rfl⟩

theorem adding_balances {α : Type} {x : Pool.Interning α} {post : α → Pool → Prop}
    (h : Ends p x post fun _ => True) :
    Ends p (Assembly.adding x) post (fun e => ¬ e.IsStructural) := by
  unfold Ends Assembly.adding at *
  rw [adapt_run]
  generalize x.run.run p = r at h
  obtain ⟨r, q⟩ := r
  cases r with
  | ok a => exact h
  | error e => exact id

theorem not_structural_of_isPoolSize {e : CodeError} (h : e.IsPoolSize) : ¬ e.IsStructural := by
  cases h
  exact id

theorem constructorCall_balances (pool : Pool) (frames : Array (Option Frame)) (i : Nat) (insns : List Insn) :
    Balances (fun _ => True) (constructorCall pool frames i insns) := by
  fun_induction constructorCall pool frames i insns with
  | case1 i => exact id
  | case2 i index rest ih =>
    refine (Balances.format _).bind fun m _ _ => ?_
    split
    · split
      · refine (Balances.format _).bind fun d _ _ => ?_
        split
        · trivial
        · exact ih
      · exact ih
    · exact ih
  | case3 i insn rest _ ih => exact ih

variable {b : Body} {context : MethodContext} {h : Hierarchy}

theorem entryPoint_balances {a : Analysis} (ha : analyze b context p h = .ok a) :
    Balances (fun _ => True) (entryPoint b context p h) := by
  unfold entryPoint
  split
  · rw [ha]
    exact (constructorCall_balances _ _ _ _).bind fun _ _ _ => trivial
  · trivial

/-- A body that hangs together is put together, or its types or its size are at fault. -/
theorem live_balances (hb : b.Balanced p) (context : MethodContext) (h : Hierarchy) :
    Balances (fun r => r.1.Balanced p ∧ ∃ m, Analysis.Method.ofBody r.1 context p h = .ok m ∧
      analyze r.1 context p h = .ok r.2) (Assemble.live b context p h) := by
  have analysed {b : Body} {a : Analysis} (ha : analyze b context p h = .ok a) :
      b.Balanced p ∧ ∃ m, Analysis.Method.ofBody b context p h = .ok m ∧ analyze b context p h = .ok a := by
    obtain ⟨m, -, hm, -⟩ := Analysis.analyze_eq_ok ha
    exact ⟨Analysis.balanced_of_analyze ha, m, hm, ha⟩
  refine (Analysis.analyze_balanced hb context h).bind fun a ha _ => ?_
  split
  · exact analysed ha
  · obtain ⟨m, -, hm, -⟩ := Analysis.analyze_eq_ok ha
    obtain ⟨n, hn⟩ := Analysis.ofBody_withoutDeadCode hm ha
    obtain ⟨e, hmirrors, hold, -⟩ := Analysis.mirrors_withoutDeadCode hm ha hn
    obtain ⟨a', ha', -⟩ := Analysis.analyzed_withoutDeadCode hm ha hn hmirrors hold
    dsimp only
    rw [ha']
    exact analysed ha'

theorem assemble_balances (hp : p.Sound) (hb : b.Balanced p) (context : MethodContext) (h : Hierarchy)
    (major : UInt16) : Ends p (assemble b context h major) (fun _ _ => True) (fun e => ¬ e.IsStructural) := by
  unfold assemble
  refine ends_get.bind fun pool q hq => ?_
  obtain ⟨rfl, rfl⟩ := hq
  refine (ends_ofExcept (live_balances hb context h)).bind fun (b', a) q hq => ?_
  obtain ⟨rfl, -, hb', m, hm, ha⟩ := hq
  refine (ends_ofExcept (encode_balanced hb')).bind fun e q hq => ?_
  obtain ⟨rfl, he, -⟩ := hq
  have hsited (i : Nat) (f : Frame) (hf : a.frame i = some f) := Analysis.analyze_sited hm ha hf
  refine Ends.bind ((Assemble.tables_ends (encode_fits he) hsited major hp).faulty fun _ =>
    not_structural_of_isPoolSize) fun _ _ _ => ?_
  exact .pure trivial

variable {plan : WeavePlan} {major : UInt16} {code : CodeAttribute} {given : Body} {a : Analysis}

/-- Weaving a method that is analysed fails for reasons of types and sizes only: what is woven finds on the
stack what it takes, its labels are placed, its ranges hold something, and control stays within it. What the
method returns has to be of its type, and no parameter void. -/
theorem method_balanced (hp : p.Sound) (hstraight : code.Straight) (hgiven : decode code = .ok given)
    (ha : analyze given context p h = .ok a) (hvoid : ∀ t ∈ context.descriptor.parameters, t ≠ .void)
    (hreturns : ∀ op, .simple op ∈ given.insns → Op.isReturn op = true →
      op = context.descriptor.returnType.returnOpcode) :
    Ends p (method plan context h major code) (fun _ _ => True) (fun e => ¬ e.IsStructural) := by
  unfold method
  have hdecode : Balances (fun b => b = given) (decode code) := by
    rw [hgiven]
    rfl
  refine (ends_ofExcept hdecode).bind fun b q hq => ?_
  obtain ⟨rfl, -, rfl⟩ := hq
  refine ends_get.bind fun pool q' hq => ?_
  obtain ⟨rfl, rfl⟩ := hq
  refine (ends_ofExcept (entryPoint_balances ha)).bind fun entry q hq => ?_
  obtain ⟨rfl, hentry, -⟩ := hq
  have hbody : Ends _ (body plan context b entry) _ fun _ => True :=
    body_ends (fun _ _ => trivial) hp plan context b entry fun _ _ _ _ _ _ _ => trivial
  refine (adding_balances hbody).bind fun woven r hr => ?_
  obtain ⟨hgrows, w, hw⟩ := hr
  have htidy := decode_tidy hstraight hgiven
  have henters := enters_of_entryPoint hentry
  have hlt : entry < b.insns.length := by
    rcases henters with rfl | ⟨_, _, -, -, -, -, hlt⟩
    · obtain ⟨insn, -, -, hinsn, -⟩ := Analysis.path_counted ha .start
      exact (List.getElem?_eq_some_iff.1 hinsn).1
    · exact hlt
  have hbefore (i : Nat) (insn : Insn) (hi : entry = i + 1) (hinsn : b.insns[i]? = some insn) :
      insn.isPseudo = false := by
    obtain ⟨op, index, hcall⟩ := call_of_entryPoint hentry hi
    cases hcall.symm.trans hinsn
    rfl
  have hbalanced := hw.balanced (hw.segments_ne_of_lt hlt) htidy hgrows.within ha hvoid hreturns henters hbefore
  exact assemble_balances hgrows.sound hbalanced context h major

end Methods

end Weave

end Interpose
