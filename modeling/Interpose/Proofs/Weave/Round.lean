import Interpose.Proofs.Weave.Entrance
/-!
# Woven methods that are read again

A pass weaves a method, leaves out the dead code and writes the rest, which the next pass reads
(`Round`). The next pass finds the entry point at the same place (`Round.enters_again`). Up to there
the method says what it said, and from there on it says the report of the start, the segments of
what was live and the handler (`Round.spreads`).
-/

namespace Interpose

/-- Marks of source lines lead to something. -/
theorem Body.Tidy.led {b : Body} (hb : b.Tidy) : Led b.insns := by
  refine led_of_lead fun i line hi => ?_
  obtain ⟨x, y, hix, hy, hreal, -⟩ := hb.lines_end hi
  exact ⟨x, y, hix, hy, hreal⟩

/-- An invocation is read as the same invocation. -/
theorem Rereads.method_of_row {split : Nat → Bool} {b b' : Body} (h : Rereads split b b') {i r : Nat}
    {op : Opcode} {index : UInt16} {insn : Insn} (hi : b.insns[i]? = some (.method op index))
    (hr : b'.insns[r]? = some insn) (hreal : insn.isPseudo = false)
    (hnumber : numberAt whole b'.insns r = numberAt split b.insns i) : insn = .method op index := by
  have hrow : (b'.listing whole).insns[numberAt split b.insns i]? = some (.method op index) := by
    rcases h.row hi rfl with ⟨hrow, -⟩ | ⟨_, _, _, hjump, -⟩
    · exact hrow
    · cases hjump
  have hsame : insn.retarget (numberOf whole b'.insns) = .method op index := by
    rcases Body.listing_row (splits_whole 0 b'.insns) hr hreal with ⟨hat, -⟩ | ⟨_, _, _, -, -, -, -, hsucc⟩
    · rw [hnumber, hrow] at hat
      exact (Option.some.inj hat).symm
    · rw [numberAt_succ hr, Insn.weight, hreal] at hsucc
      exact absurd hsucc (by simp [whole])
  cases insn <;> cases hsame
  rfl

namespace Weave

open WeaveSite

/-- What a pass makes of a method: its parts are put together, the dead code is left out, and what
is written is read again. -/
structure Round (s : WeaveSite) (q : Pool) (given : Body) (entry : Nat) (again : Body) where
  parts : Parts
  woven : Body
  kept : Body
  old : Nat → Nat
  split : Nat → Bool
  made : WovenFrom s q given entry parts woven
  nonempty : parts.segments ≠ []
  tidy : given.Tidy
  enters : Enters given entry
  call : ∀ i, entry = i + 1 → ∃ op index, given.insns[i]? = some (.method op index)
  resolved : ∃ context p h m, Analysis.Method.Of m woven context p h
  left : Kept woven kept old
  read : Rereads split kept again
  tidyAgain : again.Tidy

namespace Round

variable {s : WeaveSite} {q : Pool} {given again : Body} {entry entry' : Nat}
  (R : Round s q given entry again)

/-- The two entry points are the starts, or they stand behind the same invocation. -/
def Matches (entry' : Nat) : Prop :=
  entry = 0 ∧ entry' = 0 ∨ ∃ k r op index, entry = R.old k + 1 ∧ entry' = r + 1 ∧
    R.kept.insns[k]? = some (.method op index) ∧ again.insns[r]? = some (.method op index) ∧
    numberAt whole again.insns r = numberAt R.split R.kept.insns k

theorem led : Led R.woven.insns :=
  R.made.led R.nonempty R.tidy

include R in
theorem behind (i : Nat) (insn : Insn) (hi : entry = i + 1) (hinsn : given.insns[i]? = some insn) :
    insn.isPseudo = false := by
  obtain ⟨op, index, hcall⟩ := R.call i hi
  rw [Option.some.inj (hinsn.symm.trans hcall)]
  rfl

include R in
/-- Control reaches everything that is read again. -/
theorem reached_again {r : Nat} {insn : Insn} (hr : again.insns[r]? = some insn)
    (hreal : insn.isPseudo = false) :
    again.Reached r :=
  R.read.reached (fun _ _ hk hreal => R.left.reached R.led hk hreal) hr hreal

/-! ## What is said again -/

open Classical in
/-- Up to its entry point the method says what it said, and from there on it says what is woven. -/
theorem spreads (hmatches : R.Matches entry') : ∃ bs zss fs,
    Template.SettleAll q R.parts.before bs ∧
    List.Forall₂ (fun g z => Template.SettleAll q (Segment.templates g) z) R.parts.segments zss ∧
    Template.SettleAll q R.parts.finish fs ∧
    Spreads (given.spoken 0 (given.insns.take entry)) (wording (again.insns.take entry')) ∧
    Spreads (wording bs ++ ((zss.zipIdx entry).flatMap (fun x => if given.Live x.2 then wording x.1 else []) ++
      wording fs)) (wording (again.insns.drop entry')) := by
  obtain ⟨context, p, h, m, hof⟩ := R.resolved
  obtain ⟨bs, zss, fs, hbs, hzss, hfs, hfirst, hrest⟩ :=
    R.made.spoken_parts R.nonempty R.tidy R.enters R.behind hof
  refine ⟨bs, zss, fs, hbs, hzss, hfs, ?_⟩
  rw [← hfirst, ← hrest]
  rcases hmatches with ⟨rfl, rfl⟩ | ⟨k, r, op, index, hentry, rfl, hk, hr, hnumber⟩
  · refine ⟨.nil, ?_⟩
    rw [List.drop_zero, List.drop_zero, ← R.left.wording_eq]
    exact R.read.spreads R.left.led R.tidyAgain.led
  · have hlt := (List.getElem?_eq_some_iff.1 hk).1
    have hwhole : R.split k = false := by
      rw [Bool.eq_false_iff]
      intro hsplit
      obtain ⟨_, _, hjump, -⟩ := R.read.splits k _ hk (by rwa [Nat.zero_add])
      cases hjump
    have htake := R.left.wording_take_succ hlt
    have hdrop := R.left.wording_drop_succ hlt
    rw [← hentry] at htake hdrop
    rw [← htake, ← hdrop]
    exact R.read.spreads_at R.left.led R.tidyAgain.led hk rfl hwhole hr rfl hnumber

/-! ## The entry point -/

/-- The code up to the entry point stays where it is. -/
theorem insn_of_prologue {x : Nat} (hx : x < entry) : R.woven.insns[x]? = given.insns[x]? ∧
    R.parts.door x = x ∧ R.parts.InPiece x x := by
  have hlength := R.made.length_prologue R.nonempty
  have hlt : x < given.insns.length := by
    have hprologue := congrArg List.length R.made.rebuilt.prologue
    rw [List.length_take] at hprologue
    omega
  have hinsn := List.getElem?_eq_getElem hlt
  obtain ⟨g, hg⟩ := R.made.piece_of_lt hlt
  have hedge : R.parts.edge x = x := Parts.edge_of_le (by omega)
  have hspot : R.parts.spot x = x := by
    obtain ⟨-, ⟨-, he⟩ | ⟨hge, -⟩⟩ := R.made.piece_cases hg
    · rw [Parts.spot_eq hg, he, hedge]
      rfl
    · omega
  refine ⟨?_, ?_, ?_, ?_⟩
  · rw [hinsn, ← R.made.insn_at_spot R.nonempty hinsn, hspot]
  · rw [Parts.door, if_neg (by omega), hedge, Nat.add_zero]
  · rw [hedge]
  · rw [Parts.edge_of_le (by omega)]
    exact Nat.lt_succ_self x

variable {context : MethodContext} {p p' : Pool} {h h' : Hierarchy}

/-- A path to an instruction in front of the entry point leads to what is read for it, and the
object under construction is held in the same places. -/
theorem comes_again {o : Held} (hfree : ∀ i insn o', entry = i + 1 → given.insns[i]? = some insn →
      Comes p' given (0, o) (i, o') → (o'.after p' insn).Free) (hqp : q.Within p') {x : Nat} {insn : Insn}
    {o' : Held} (hx : x < entry) (hinsn : given.insns[x]? = some insn) (hreal : insn.isPseudo = false)
    (hcomes : Comes p' given (0, o) (x, o')) : ∃ k r insn' o'', k < R.kept.insns.length ∧ R.old k = x ∧
      R.kept.insns[k]? = some insn ∧ again.insns[r]? = some insn' ∧ insn'.isPseudo = false ∧
      numberAt whole again.insns r = numberAt R.split R.kept.insns k ∧
      Comes p' again (0, o) (r, o'') ∧ o'.Same o'' := by
  obtain ⟨hwoven, hdoor, -⟩ := R.insn_of_prologue hx
  obtain ⟨o'', hthere, hsame⟩ := (R.made.within hqp).comes_door R.nonempty R.tidy.labels
    (Nat.zero_lt_of_lt hx) hfree hcomes
  rw [hdoor] at hthere
  obtain ⟨k, hk, hold⟩ := R.left.of_reached R.led (hwoven.trans hinsn)
    (Body.Reached.of_comes (x := (0, o)) .entry hthere)
  have hkept : R.kept.insns[k]? = some insn := by
    rw [← R.left.thinned.insn k hk, hold, hwoven, hinsn]
  obtain ⟨r, insn', hr, hreal', hnumber, hread⟩ :=
    R.read.comes (R.left.comes R.led hthere hk hold) hkept hreal
  exact ⟨k, r, insn', o'', hk, hold, hkept, hr, hreal', hnumber, hread, hsame⟩

/-- There is one place behind what is read for the invocation in front of the entry point. -/
theorem exists_matches : ∃ entry', R.Matches entry' := by
  rcases R.enters with hzero | ⟨i, -, hi, -, -, hreached, -⟩
  · exact ⟨0, .inl ⟨hzero, rfl⟩⟩
  · obtain ⟨op, index, hcall⟩ := R.call i hi
    obtain ⟨hwoven, -, hin⟩ := R.insn_of_prologue (x := i) (by omega)
    have hthere := R.made.reached_piece R.nonempty R.tidy R.enters hreached hin
    obtain ⟨k, hk, hold⟩ := R.left.of_reached R.led (hwoven.trans hcall) hthere
    have hkept : R.kept.insns[k]? = some (.method op index) := by
      rw [← R.left.thinned.insn k hk, hold, hwoven, hcall]
    obtain ⟨o, hcomes⟩ := (R.left.reached R.led hkept rfl).comes .empty ⟨fun _ => false, []⟩
    obtain ⟨r, insn, hr, hreal, hnumber, -⟩ := R.read.comes hcomes hkept rfl
    obtain rfl := R.read.method_of_row hkept hr hreal hnumber
    exact ⟨r + 1, .inr ⟨k, r, op, index, by rw [hold, hi], rfl, hkept, hr, hnumber⟩⟩

theorem matches_unique {e e' : Nat} (h : R.Matches e) (h' : R.Matches e') : e = e' := by
  rcases h with ⟨hzero, rfl⟩ | ⟨k, r, op, index, hentry, rfl, hk, hr, hnumber⟩ <;>
    rcases h' with ⟨hzero', rfl⟩ | ⟨k', r', op', index', hentry', rfl, hk', hr', hnumber'⟩
  · rfl
  · omega
  · omega
  · have hold : R.old k = R.old k' := by omega
    obtain rfl := R.left.thinned.inj (List.getElem?_eq_some_iff.1 hk).1 (List.getElem?_eq_some_iff.1 hk').1 hold
    rw [Rereads.unique hr rfl hr' rfl (hnumber.trans hnumber'.symm)]

/-- The next pass finds the entry point at the same place. -/
theorem enters_again (hpp : p.Within p') (hqp : q.Within p')
    (hgiven : entryPoint given context p h = .ok entry) (hagain : entryPoint again context p' h' = .ok entry') :
    R.Matches entry' := by
  by_cases hstart : context.startsUninitialized = true
  swap
  · unfold entryPoint at hgiven hagain
    rw [if_neg hstart] at hgiven hagain
    cases hgiven
    cases hagain
    exact .inl ⟨rfl, rfl⟩
  obtain ⟨i, hi, ⟨index, n, o, hinsn, hslots, hcomes, htrue⟩, hfirst⟩ :=
    entryPoint_constructs hstart hpp hgiven
  obtain ⟨j, rfl, ⟨index', n', o', hinsn', hslots', hcomes', htrue'⟩, hfirst'⟩ :=
    entryPoint_constructs hstart (.refl p') hagain
  have hfree : ∀ i insn o', entry = i + 1 → given.insns[i]? = some insn →
      Comes p' given (0, .initial context) (i, o') → (o'.after p' insn).Free :=
    fun i insn o' => free_of_entryPoint hpp hgiven hstart
  obtain ⟨k, r, insn, o₁, hk, hold, hkept, hr, hreal, hnumber, hread, hsame⟩ :=
    R.comes_again hfree hqp (by omega) hinsn rfl hcomes
  obtain rfl := R.read.method_of_row hkept hr hreal hnumber
  have hle : j ≤ r := by
    by_contra hlt
    exact hfirst' r (Nat.lt_of_not_le hlt) ⟨index, n, o₁, hr, hslots, hread, hsame.stack.1 htrue⟩
  obtain rfl : j = r := by
    refine Nat.le_antisymm hle (Nat.le_of_not_lt fun hlt => ?_)
    -- the invocation that the next pass finds would stand in front of the one that this pass has found
    obtain ⟨k', hkept', hnumber'⟩ := R.read.row_of_method hinsn'
    have hk' := (List.getElem?_eq_some_iff.1 hkept').1
    have hkk : k' < k := by
      by_contra hge
      have hmono := Body.numberAt_mono R.split R.kept.insns (Nat.le_of_not_lt hge) (Nat.le_of_lt hk')
      rw [hnumber', ← hnumber] at hmono
      exact absurd (Rereads.numberAt_lt hinsn' rfl hr hlt) (Nat.not_lt_of_le hmono)
    have hold' := R.left.thinned.mono k' k hkk hk
    obtain ⟨hwoven, -, hin⟩ := R.insn_of_prologue (x := R.old k') (by omega)
    have hthere := (R.left.thinned.insn k' hk').trans hkept'
    have hlive := (Body.live_iff_reached hthere rfl).1 (R.left.live k' _ hkept' fun _ => Insn.noConfusion)
    obtain ⟨o₂, hcomes₂⟩ := (R.made.reached_of_piece R.nonempty R.tidy R.enters R.behind hlive hin).comes p'
      (.initial context)
    obtain ⟨k₂, r₂, insn₂, o₃, hk₂, hold₂, hkept₂, hr₂, hreal₂, hnumber₂, hread₂, hsame₂⟩ :=
      R.comes_again hfree hqp (by omega) (hwoven.symm.trans hthere) rfl hcomes₂
    obtain rfl := R.left.thinned.inj hk₂ hk' hold₂
    obtain rfl := Rereads.unique hr₂ hreal₂ hinsn' rfl (hnumber₂.trans hnumber')
    rw [stack_unique (.refl p') hagain hstart hcomes' hread₂] at htrue'
    exact hfirst _ (by omega) ⟨index', n', o₂, hwoven.symm.trans hthere, hslots', hcomes₂,
      hsame₂.stack.2 htrue'⟩
  exact .inr ⟨k, j, _, index, by rw [hold, hi], rfl, hkept, hr, hnumber⟩

end Round

/-- An invocation stands in front of an entry point that is not the start. -/
theorem call_of_entryPoint {given : Body} {context : MethodContext} {p : Pool} {h : Hierarchy} {entry i : Nat}
    (hentry : entryPoint given context p h = .ok entry) (hi : entry = i + 1) :
    ∃ op index, given.insns[i]? = some (.method op index) := by
  unfold entryPoint at hentry
  split at hentry
  · obtain ⟨a, -, hentry⟩ := bind_eq_ok.1 hentry
    obtain ⟨n, hn, hentry⟩ := bind_eq_ok.1 hentry
    obtain ⟨k, index, f, hk, hat, -⟩ := constructorCall_eq_ok hn
    cases hentry
    obtain rfl : i = k := by omega
    exact ⟨_, index, hat⟩
  · cases hentry
    cases hi

/-- A pass over a method, from its code to what is read again. -/
theorem round_of_method {plan : WeavePlan} {context : MethodContext} {h : Hierarchy} {major : UInt16}
    {code c : CodeAttribute} {given : Body} {p q : Pool} (hp : p.Sound) (hstraight : code.Straight)
    (hgiven : decode code = .ok given) (hc : (method plan context h major code).run.run p = (.ok c, q)) :
    ∃ entry again r, entryPoint given context p h = .ok entry ∧ p.Within r ∧ r.Within q ∧ q.Sound ∧
      c.Straight ∧ decode c = .ok again ∧ Nonempty (Round ⟨plan, context⟩ r given entry again) := by
  obtain ⟨given', entry, woven, r, hgiven', hentry, hwoven, hassemble⟩ := method_steps hc
  cases hgiven.symm.trans hgiven'
  obtain ⟨hgrows, w, hw⟩ := body_grows hp hwoven
  have htidy := decode_tidy hstraight hgiven
  have henters := enters_of_entryPoint hentry
  obtain ⟨kept, a, split, again, hlive, hstraight', hagain, hread⟩ :=
    assemble_rereads hgrows.sound hassemble (hw.standard htidy.standard)
  obtain ⟨a0, ha0, -⟩ := bind_eq_ok.1 hlive
  obtain ⟨m, -, hm, -⟩ := Analysis.analyze_eq_ok ha0
  have hne := hw.segments_ne htidy.labels hm ha0 henters
  obtain ⟨old, hleft⟩ := kept_of_live hlive (hw.led hne htidy)
  obtain ⟨-, -, -, -, -, -, -, hq, -⟩ := assemble_eq_ok hgrows.sound hassemble
  exact ⟨entry, again, r, hentry, hgrows.within, hq.within, hq.sound, hstraight', hagain, ⟨{
    parts := w, woven, kept, old, split, made := hw, nonempty := hne, tidy := htidy, enters := henters
    call := fun _ => call_of_entryPoint hentry
    resolved := ⟨_, _, _, m, Analysis.of_ofBody hm⟩
    left := hleft, read := hread, tidyAgain := decode_tidy hstraight' hagain }⟩⟩

end Weave

end Interpose
