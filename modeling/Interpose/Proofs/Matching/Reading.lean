import Interpose.Matching.RegexSyntax
import Interpose.Proofs.Matching.Expressions
import Interpose.Proofs.Matching.Occurrences
/-!
# The engine of the library keeps to the manual

What the signs of an expression are written as is read back piece by piece, an escaped text one character
after the other; each piece gives one item of the expression, and the items stand in the order of the
pieces. A piece spans two positions of a text exactly if its sign takes what stands between them.

Results:
* `Regex.ofText_writtenAll`: the signs can be read, and what they are read as.
* `Regex.along_ofSigns_iff`: positions along the items, and what the signs take.
* `Regex.engine_documented`: the engine compiles every sequence of signs and finds what they take.
-/

namespace Interpose

namespace Regex

/-- A piece of an expression: a sign, or one character of an escaped text. -/
inductive Piece where
  | textStart
  | textEnd
  | anyChar
  | anyRun
  | only (c : Char)

namespace Piece

def written : Piece → List Char
  | textStart => ['^']
  | textEnd => ['$']
  | anyChar => ['.']
  | anyRun => ['.', '*']
  | only c => escapedChar c

def tokens : Piece → List RegexToken
  | textStart => [.textStart]
  | textEnd => [.textEnd]
  | anyChar => [.set .anyOfLine]
  | anyRun => [.set .anyOfLine, .count 0 none]
  | only c => [.set (.only c)]

def regex : Piece → Regex
  | textStart => .textStart
  | textEnd => .textEnd
  | anyChar => .set .anyOfLine
  | anyRun => .repeated (.set .anyOfLine) 0 none
  | only c => .set (.only c)

def ofSign : RegexSign → List Piece
  | .textStart => [textStart]
  | .textEnd => [textEnd]
  | .anyChar => [anyChar]
  | .anyRun => [anyRun]
  | .literal text => text.toList.map only

end Piece

open RegexSign (writtenAll Take)

variable {text rest : List Char} {c : Char} {i j k : Nat} {ps qs : List Piece}

theorem toList_writtenAll (signs : List RegexSign) :
    (writtenAll engine signs).toList = (signs.flatMap Piece.ofSign).flatMap Piece.written := by
  induction signs with
  | nil => rfl
  | cons sign signs ih =>
    rw [writtenAll, List.foldr_cons, ← writtenAll, String.toList_append, ih, List.flatMap_cons,
      List.flatMap_append]
    congr 1
    cases sign with
    | literal s =>
      rw [RegexSign.written, engine, String.toList_ofList, Piece.ofSign, List.flatMap_map]
      rfl
    | _ => rfl

/-! ## Reading -/

theorem escape_of_meta :
    ∀ c ∈ metaCharacters, c ≠ 'A' ∧ c ≠ 'z' ∧ RegexToken.escape c = some (.only c) := by
  have hall : metaCharacters.all (fun c => decide (c ≠ 'A' ∧ c ≠ 'z' ∧
      RegexToken.escape c = some (.only c))) = true := by decide
  exact fun c hc => of_decide_eq_true (List.all_eq_true.1 hall c hc)

theorem next_escaped (h : c ∈ metaCharacters) :
    RegexToken.next '\\' (c :: rest) = some (.set (.only c), rest) := by
  obtain ⟨hA, hz, hescape⟩ := escape_of_meta c h
  have hnext : RegexToken.next '\\' (c :: rest) = (RegexToken.escape c).map fun s => (.set s, rest) := by
    simp only [RegexToken.next]
  rw [hnext, hescape]
  rfl

theorem next_plain (h : c ∉ metaCharacters) : RegexToken.next c rest = some (.set (.only c), rest) := by
  simp only [metaCharacters, List.mem_cons, List.not_mem_nil, or_false, not_or] at h
  unfold RegexToken.next
  split <;> first | rfl | simp_all

/-- What follows a piece does not change it: none begins with the mark of a lazy repetition. -/
theorem withoutLazyMark_written (ps : List Piece) :
    RegexToken.withoutLazyMark (ps.flatMap Piece.written) = ps.flatMap Piece.written := by
  cases ps with
  | nil => rfl
  | cons p ps =>
    cases p with
    | only c =>
      rw [List.flatMap_cons, Piece.written, escapedChar]
      split
      · rfl
      · rename_i h
        have hne : c ≠ '?' := fun e => h (by rw [e]; decide)
        unfold RegexToken.withoutLazyMark
        split
        · simp_all
        · rfl
    | _ => rfl

theorem ofText_cons {fuel : Nat} {rest' : List Char} {t : RegexToken} {ts : List RegexToken}
    (hfuel : 0 < fuel) (hnext : RegexToken.next c rest = some (t, rest'))
    (hrest : RegexToken.ofText (fuel - 1) rest' = some ts) :
    RegexToken.ofText fuel (c :: rest) = some (t :: ts) := by
  cases fuel with
  | zero => exact absurd hfuel (Nat.lt_irrefl 0)
  | succ fuel =>
    rw [Nat.add_sub_cancel] at hrest
    rw [RegexToken.ofText, hnext]
    simp [hrest]

/-- Piece by piece, with fuel for every character. -/
theorem ofText_written (ps : List Piece) {fuel : Nat} (hfuel : (ps.flatMap Piece.written).length ≤ fuel) :
    RegexToken.ofText fuel (ps.flatMap Piece.written) = some (ps.flatMap Piece.tokens) := by
  induction ps generalizing fuel with
  | nil => cases fuel <;> rfl
  | cons p ps ih =>
    have hlazy := withoutLazyMark_written ps
    rw [List.flatMap_cons] at hfuel ⊢
    rw [List.flatMap_cons]
    generalize ps.flatMap Piece.written = rest at hfuel ih hlazy ⊢
    rw [List.length_append] at hfuel
    cases p with
    | anyRun =>
      simp only [Piece.written, List.length_cons, List.length_nil] at hfuel
      have hstar : RegexToken.next '*' rest = some (.count 0 none, rest) :=
        congrArg (fun r => some (RegexToken.count 0 none, r)) hlazy
      exact ofText_cons (by omega) rfl (ofText_cons (by omega) hstar (ih (by omega)))
    | only c =>
      rw [Piece.written, escapedChar] at hfuel ⊢
      by_cases hmeta : c ∈ metaCharacters
      · rw [if_pos hmeta, List.length_cons, List.length_singleton] at hfuel
        rw [if_pos hmeta]
        exact ofText_cons (by omega) (next_escaped hmeta) (ih (by omega))
      · rw [if_neg hmeta, List.length_singleton] at hfuel
        rw [if_neg hmeta]
        exact ofText_cons (by omega) (next_plain hmeta) (ih (by omega))
    | _ =>
      simp only [Piece.written, List.length_cons, List.length_nil] at hfuel
      exact ofText_cons (by omega) rfl (ih (by omega))

theorem ofTokens_pieces (ps : List Piece) (items : List Regex) :
    ofTokens { items } [] (ps.flatMap Piece.tokens) =
      some (Level.close { items := (ps.map Piece.regex).reverse ++ items }) := by
  induction ps generalizing items with
  | nil => rfl
  | cons p ps ih =>
    have hpiece : ofTokens { items } [] (p.tokens ++ ps.flatMap Piece.tokens) =
        ofTokens { items := p.regex :: items } [] (ps.flatMap Piece.tokens) := by
      cases p <;> rfl
    rw [List.flatMap_cons, hpiece, ih, List.map_cons, List.reverse_cons, List.append_assoc]
    rfl

/-- The signs can be read. -/
theorem ofText_writtenAll (signs : List RegexSign) : ofText (writtenAll engine signs) =
    some (Level.close { items := ((signs.flatMap Piece.ofSign).map Piece.regex).reverse }) := by
  have htokens := ofText_written (signs.flatMap Piece.ofSign) (Nat.le_refl _)
  rw [← toList_writtenAll, String.length_toList] at htokens
  rw [ofText, htokens]
  exact (ofTokens_pieces _ []).trans (by rw [List.append_nil])

/-! ## Positions along the items -/

/-- The items span what stands between the positions, one after the other. -/
def Along (text : List Char) : List Regex → Nat → Nat → Prop
  | [] => Eq
  | r :: rs => Relation.Comp (r.Spans text) (Along text rs)

theorem along_append {rs ss : List Regex} :
    Along text (rs ++ ss) i j ↔ ∃ k, Along text rs i k ∧ Along text ss k j := by
  induction rs generalizing i with
  | nil => exact ⟨fun h => ⟨i, rfl, h⟩, fun ⟨_, e, h⟩ => e ▸ h⟩
  | cons r rs ih =>
    simp only [List.cons_append, Along, Relation.Comp, ih]
    constructor
    · rintro ⟨l, hr, k, hrs, hss⟩
      exact ⟨k, ⟨l, hr, hrs⟩, hss⟩
    · rintro ⟨k, ⟨l, hr, hrs⟩, hss⟩
      exact ⟨l, hr, k, hrs, hss⟩

theorem along_singleton {r : Regex} : Along text [r] i j ↔ r.Spans text i j := by
  simp [Along, Relation.Comp]

/-- Items are put in front of an expression, the newest first. -/
theorem spans_foldl (items : List Regex) (r : Regex) :
    (items.foldl (fun r item => match r with
      | .empty => item
      | r => .seq item r) r).Spans text i j ↔ ∃ k, Along text items.reverse i k ∧ r.Spans text k j := by
  induction items generalizing r with
  | nil => exact ⟨fun h => ⟨i, rfl, h⟩, fun ⟨_, e, h⟩ => e ▸ h⟩
  | cons item items ih =>
    have hitem (k : Nat) : Spans text (match r with
        | .empty => item
        | r => .seq item r) k j ↔ ∃ l, item.Spans text k l ∧ r.Spans text l j := by
      cases r with
      | empty => exact exists_eq_right.symm
      | _ => rfl
    simp only [List.foldl_cons, ih, hitem, List.reverse_cons, along_append, along_singleton]
    constructor
    · rintro ⟨k, hitems, l, hitem, hr⟩
      exact ⟨l, ⟨k, hitems, hitem⟩, hr⟩
    · rintro ⟨l, ⟨k, hitems, hitem⟩, hr⟩
      exact ⟨k, hitems, l, hitem, hr⟩

theorem spans_close (rs : List Regex) :
    (Level.close { items := rs.reverse }).Spans text i j ↔ Along text rs i j := by
  refine (spans_foldl rs.reverse .empty).trans ?_
  rw [List.reverse_reverse]
  exact exists_eq_right

/-! ## Positions and pieces of a text -/

theorem drop_of_append (line : List Char) (h : text.drop i = line ++ rest) :
    text.drop (i + line.length) = rest := by
  rw [← List.drop_drop, h, List.drop_left]

theorem take_of_append (line : List Char) (h : text.drop i = line ++ rest) :
    text.take (i + line.length) = text.take i ++ line := by
  rw [List.take_add, h, List.take_left]

theorem stepOver_iff {accepts : Char → Bool} : StepOver accepts text i j ↔
    ∃ c rest, text.drop i = c :: rest ∧ accepts c = true ∧ j = i + 1 := by
  constructor
  · rintro ⟨rfl, c, hc, haccepts⟩
    obtain ⟨hi, rfl⟩ := List.getElem?_eq_some_iff.1 hc
    exact ⟨_, _, List.drop_eq_getElem_cons hi, haccepts, rfl⟩
  · rintro ⟨c, rest, hdrop, haccepts, rfl⟩
    refine ⟨rfl, c, ?_, haccepts⟩
    rw [← List.head?_drop, hdrop]
    rfl

theorem runOver_iff {accepts : Char → Bool} : RunOver accepts text i j ↔
    ∃ line rest, text.drop i = line ++ rest ∧ (∀ c ∈ line, accepts c = true) ∧ j = i + line.length := by
  rw [← exists_times_stepOver]
  constructor
  · rintro ⟨n, h⟩
    induction n generalizing i with
    | zero =>
      cases h
      exact ⟨[], _, rfl, nofun, rfl⟩
    | succ n ih =>
      obtain ⟨k, hstep, htimes⟩ := h
      obtain ⟨c, tail, hdrop, hc, rfl⟩ := stepOver_iff.1 hstep
      obtain ⟨line, rest, hline, hall, rfl⟩ := ih htimes
      rw [show text.drop (i + 1) = tail from drop_of_append [c] hdrop] at hline
      refine ⟨c :: line, rest, by rw [hdrop, hline]; rfl, List.forall_mem_cons.2 ⟨hc, hall⟩, ?_⟩
      rw [List.length_cons]
      omega
  · rintro ⟨line, rest, hdrop, hall, rfl⟩
    refine ⟨line.length, ?_⟩
    induction line generalizing i with
    | nil => rfl
    | cons c line ih =>
      obtain ⟨hc, hline⟩ := List.forall_mem_cons.1 hall
      have htail : text.drop (i + 1) = line ++ rest := drop_of_append [c] hdrop
      refine ⟨i + 1, stepOver_iff.2 ⟨c, _, hdrop, hc, rfl⟩, ?_⟩
      rw [List.length_cons, ← Nat.add_assoc, Nat.add_right_comm]
      exact ih htail hline

theorem contains_only {d : Char} : (CharSet.only c).contains d = true ↔ d = c := by
  rw [CharSet.only, CharSet.contains, Bool.and_eq_true, decide_eq_true_iff, decide_eq_true_iff]
  exact ⟨fun h => Char.le_antisymm h.2 h.1, fun h => h ▸ ⟨Char.le_refl _, Char.le_refl _⟩⟩

theorem contains_anyOfLine : CharSet.anyOfLine.contains c = true ↔ c ≠ '\n' := by
  rw [CharSet.anyOfLine, CharSet.contains, Bool.not_eq_true', Bool.eq_false_iff, Ne, contains_only]

theorem along_only (line : List Char) :
    Along text ((line.map Piece.only).map Piece.regex) i j ↔
      ∃ rest, text.drop i = line ++ rest ∧ j = i + line.length := by
  induction line generalizing i with
  | nil => exact ⟨fun h => ⟨_, rfl, h.symm⟩, fun ⟨_, _, h⟩ => h.symm⟩
  | cons c line ih =>
    simp only [List.map_cons, Along, Relation.Comp, Piece.regex, Spans, stepOver_iff, contains_only, ih]
    constructor
    · rintro ⟨_, ⟨_, tail, hdrop, rfl, rfl⟩, rest, hrest, rfl⟩
      rw [show text.drop (i + 1) = tail from drop_of_append [_] hdrop] at hrest
      refine ⟨rest, by rw [hdrop, hrest]; rfl, ?_⟩
      rw [List.length_cons]
      omega
    · rintro ⟨rest, hdrop, rfl⟩
      refine ⟨i + 1, ⟨c, line ++ rest, hdrop, rfl, rfl⟩, rest, drop_of_append [c] hdrop, ?_⟩
      rw [List.length_cons]
      omega

/-- A sign takes what stands between the positions that its pieces span. -/
theorem along_ofSign_iff (hi : i ≤ text.length) (sign : RegexSign) :
    Along text ((Piece.ofSign sign).map Piece.regex) i j ↔
      ∃ piece after, text.drop i = piece ++ after ∧ j = i + piece.length ∧
        sign.Takes (text.take i) piece after := by
  cases sign with
  | textStart =>
    refine along_singleton.trans ⟨?_, ?_⟩
    · rintro ⟨rfl, rfl⟩
      exact ⟨[], text, rfl, rfl, rfl, rfl⟩
    · rintro ⟨_, _, -, rfl, rfl, htake⟩
      have := congrArg List.length htake
      rw [List.length_take, Nat.min_eq_left hi] at this
      exact ⟨this, rfl⟩
  | textEnd =>
    refine along_singleton.trans ⟨?_, ?_⟩
    · rintro ⟨rfl, rfl⟩
      exact ⟨[], [], List.drop_length, rfl, rfl, rfl⟩
    · rintro ⟨_, _, hdrop, rfl, rfl, rfl⟩
      exact ⟨Nat.le_antisymm hi (List.drop_eq_nil_iff.1 hdrop), rfl⟩
  | anyChar =>
    refine along_singleton.trans (stepOver_iff.trans ?_)
    simp only [contains_anyOfLine]
    constructor
    · rintro ⟨c, rest, hdrop, hc, rfl⟩
      exact ⟨[c], rest, hdrop, rfl, c, rfl, hc⟩
    · rintro ⟨_, rest, hdrop, rfl, c, rfl, hc⟩
      exact ⟨c, rest, hdrop, hc, rfl⟩
  | anyRun =>
    have hspans : (Piece.regex .anyRun).Spans text i j ↔ RunOver CharSet.anyOfLine.contains text i j := by
      rw [← exists_times_stepOver]
      simp [Piece.regex, Spans, Relation.Comp, Times]
    refine along_singleton.trans (hspans.trans (runOver_iff.trans ?_))
    simp only [contains_anyOfLine]
    constructor
    · rintro ⟨line, rest, hdrop, hall, rfl⟩
      exact ⟨line, rest, hdrop, rfl, fun hmem => hall _ hmem rfl⟩
    · rintro ⟨line, rest, hdrop, rfl, hline⟩
      exact ⟨line, rest, hdrop, fun c hc e => hline (e ▸ hc), rfl⟩
  | literal s =>
    refine (along_only s.toList).trans ⟨?_, ?_⟩
    · rintro ⟨rest, hdrop, rfl⟩
      exact ⟨s.toList, rest, hdrop, rfl, rfl⟩
    · rintro ⟨_, rest, hdrop, rfl, rfl⟩
      exact ⟨rest, hdrop, rfl⟩

/-- Signs take what stands between the positions that their pieces span. -/
theorem along_ofSigns_iff (hi : i ≤ text.length) (signs : List RegexSign) :
    Along text ((signs.flatMap Piece.ofSign).map Piece.regex) i j ↔
      ∃ piece after, text.drop i = piece ++ after ∧ j = i + piece.length ∧
        Take (text.take i) piece after signs := by
  induction signs generalizing i with
  | nil =>
    constructor
    · rintro rfl
      exact ⟨[], _, rfl, rfl, .nil⟩
    · rintro ⟨piece, after, -, rfl, htake⟩
      rw [RegexSign.take_nil_iff.1 htake]
      rfl
  | cons sign signs ih =>
    have hlen {first tail : List Char} (hdrop : text.drop i = first ++ tail) :
        i + first.length ≤ text.length := by
      have := congrArg List.length hdrop
      rw [List.length_drop, List.length_append] at this
      omega
    simp only [List.flatMap_cons, List.map_append, along_append, along_ofSign_iff hi,
      RegexSign.take_cons_iff]
    constructor
    · rintro ⟨_, ⟨first, tail, hdrop, rfl, hsign⟩, halong⟩
      obtain ⟨rest, after, hrest, rfl, hsigns⟩ := (ih (hlen hdrop)).1 halong
      rw [drop_of_append first hdrop] at hrest
      rw [take_of_append first hdrop] at hsigns
      rw [hrest] at hdrop hsign
      refine ⟨first ++ rest, after, by rw [hdrop, List.append_assoc], ?_, first, rest, rfl, hsign, hsigns⟩
      rw [List.length_append, Nat.add_assoc]
    · rintro ⟨_, after, hdrop, rfl, first, rest, rfl, hsign, hsigns⟩
      rw [List.append_assoc] at hdrop
      refine ⟨_, ⟨first, _, hdrop, rfl, hsign⟩, (ih (hlen hdrop)).2 ⟨rest, after, ?_, ?_, ?_⟩⟩
      · exact drop_of_append first hdrop
      · rw [List.length_append, Nat.add_assoc]
      · rwa [take_of_append first hdrop]

/-- The engine of the library compiles every sequence of signs, and finds what they take. -/
theorem engine_documented : engine.Documented where
  compiles signs := ⟨_, congrArg (Option.map _) (ofText_writtenAll signs)⟩
  isMatch signs r hr name := by
    cases (congrArg (Option.map _) (ofText_writtenAll signs)).symm.trans hr
    refine (occursIn_iff _ name).trans ?_
    simp only [spans_close]
    constructor
    · rintro ⟨i, j, hi, halong⟩
      obtain ⟨piece, after, hdrop, -, htake⟩ := (along_ofSigns_iff hi signs).1 halong
      refine ⟨name.toList.take i, piece, after, ?_, htake⟩
      rw [List.append_assoc, ← hdrop, List.take_append_drop]
    · rintro ⟨before, piece, after, hname, htake⟩
      have hi : before.length ≤ name.toList.length := by simp [hname]
      refine ⟨before.length, _, hi, (along_ofSigns_iff hi signs).2 ⟨piece, after, ?_, rfl, ?_⟩⟩
      · rw [hname, List.append_assoc, List.drop_left]
      · rwa [hname, List.append_assoc, List.take_left]

end Regex

end Interpose
