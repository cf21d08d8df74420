import Interpose.Matching.RegexEngine
/-!
# What is known of expressions

The manual of an engine says what the signs of an expression take from a text, and that an expression
matches if what its signs take stands somewhere in the text, one after the other. Here are the signs that
patterns are translated to: the two anchors, any character but the line feed, once or any number of times,
and a text that was escaped (`RegexSign`). An engine that keeps to the manual compiles every sequence of
them, and answers accordingly (`RegexEngine.Documented`).
-/

namespace Interpose

/-- A sign of an expression. -/
inductive RegexSign where
  | textStart
  | textEnd
  | anyChar
  | anyRun
  | literal (text : String)

namespace RegexSign

def written (E : RegexEngine) : RegexSign → String
  | textStart => "^"
  | textEnd => "$"
  | anyChar => "."
  | anyRun => ".*"
  | literal text => E.escape text

/-- The sign takes `piece` where `before` and `after` stand around it. -/
def Takes (before piece after : List Char) : RegexSign → Prop
  | textStart => piece = [] ∧ before = []
  | textEnd => piece = [] ∧ after = []
  | anyChar => ∃ c, piece = [c] ∧ c ≠ '\n'
  | anyRun => '\n' ∉ piece
  | literal text => piece = text.toList

/-- The signs take `piece`, one after the other. -/
inductive Take : (before piece after : List Char) → List RegexSign → Prop
  | nil {before after} : Take before [] after []
  | cons {before first rest after sign signs} : sign.Takes before first (rest ++ after) →
      Take (before ++ first) rest after signs → Take before (first ++ rest) after (sign :: signs)

def writtenAll (E : RegexEngine) (signs : List RegexSign) : String :=
  signs.foldr (fun sign text => sign.written E ++ text) ""

end RegexSign

/-- The engine compiles the signs, and finds what they take. -/
structure RegexEngine.Documented (E : RegexEngine) : Prop where
  compiles : ∀ signs, ∃ r, E.compile (RegexSign.writtenAll E signs) = some r
  isMatch : ∀ signs r, E.compile (RegexSign.writtenAll E signs) = some r → ∀ name,
    r.isMatch name = true ↔
      ∃ before piece after, name.toList = before ++ piece ++ after ∧ RegexSign.Take before piece after signs

namespace RegexSign

variable {E : RegexEngine} {before piece after text : List Char} {sign : RegexSign}
  {signs more : List RegexSign}

theorem writtenAll_concat : writtenAll E (signs ++ [sign]) = writtenAll E signs ++ sign.written E := by
  induction signs with
  | nil => exact String.append_empty.trans String.empty_append.symm
  | cons first signs ih =>
    rw [List.cons_append, writtenAll, List.foldr_cons, ← writtenAll, ih, ← String.append_assoc]
    rfl

theorem take_nil_iff : Take before piece after [] ↔ piece = [] :=
  ⟨fun h => by cases h; rfl, fun h => h ▸ .nil⟩

theorem take_cons_iff : Take before piece after (sign :: signs) ↔
    ∃ first rest, piece = first ++ rest ∧ sign.Takes before first (rest ++ after) ∧
      Take (before ++ first) rest after signs := by
  constructor
  · rintro (_ | ⟨hsign, hsigns⟩)
    exact ⟨_, _, rfl, hsign, hsigns⟩
  · rintro ⟨first, rest, rfl, hsign, hsigns⟩
    exact .cons hsign hsigns

theorem take_append_iff : Take before piece after (signs ++ more) ↔
    ∃ first rest, piece = first ++ rest ∧ Take before first (rest ++ after) signs ∧
      Take (before ++ first) rest after more := by
  induction signs generalizing before piece with
  | nil =>
    constructor
    · intro h
      exact ⟨[], piece, rfl, .nil, by rwa [List.append_nil]⟩
    · rintro ⟨first, rest, rfl, hfirst, hrest⟩
      rw [take_nil_iff.1 hfirst, List.append_nil] at hrest
      rwa [take_nil_iff.1 hfirst]
  | cons sign signs ih =>
    simp only [List.cons_append, take_cons_iff, ih]
    constructor
    · rintro ⟨first, _, rfl, hsign, middle, rest, rfl, hsigns, hmore⟩
      refine ⟨first ++ middle, rest, (List.append_assoc ..).symm, ⟨first, middle, rfl, ?_, hsigns⟩, ?_⟩
      · rwa [← List.append_assoc]
      · rwa [← List.append_assoc]
    · rintro ⟨_, rest, rfl, ⟨first, middle, rfl, hsign, hsigns⟩, hmore⟩
      refine ⟨first, middle ++ rest, List.append_assoc .., ?_, middle, rest, rfl, hsigns, ?_⟩
      · rwa [List.append_assoc]
      · rwa [List.append_assoc]

theorem take_singleton_iff : Take before piece after [sign] ↔ sign.Takes before piece after := by
  rw [take_cons_iff]
  constructor
  · rintro ⟨first, rest, rfl, hsign, hrest⟩
    rw [take_nil_iff.1 hrest] at hsign ⊢
    rwa [List.append_nil]
  · intro h
    exact ⟨piece, [], (List.append_nil _).symm, h, .nil⟩

theorem take_concat_iff : Take before piece after (signs ++ [sign]) ↔
    ∃ first rest, piece = first ++ rest ∧ Take before first (rest ++ after) signs ∧
      sign.Takes (before ++ first) rest after := by
  simp only [take_append_iff, take_singleton_iff]

end RegexSign

end Interpose
