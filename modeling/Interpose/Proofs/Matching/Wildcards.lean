import Interpose.Matching.Pattern
import Interpose.Proofs.Matching.Reading
/-!
# What a wildcard pattern stands for

A pattern covers a name if the name can be cut along it: a `*` takes a run of characters, a `?` takes one
character, neither takes a line feed, and everything else in the pattern takes itself (`Covers`).

The translation keeps what it has written in step with the characters it has read: what is written takes
exactly the texts that these characters cover, once the characters since the last wildcard are escaped
behind it (`Translation.Follows`). So an engine that keeps to its manual answers for the expression as the
pattern asks for, whatever else stands in the pattern.

Results:
* `Translation.Follows.next`, `Translation.Follows.foldl`: one more character, and any number of them.
* `isMatch_wildcardExpression`: what the expression of a pattern matches.
* `holds_ofWildcard`: the names that satisfy a pattern.
-/

namespace Interpose

/-- The name can be cut along the pattern. -/
inductive Covers : (pattern name : List Char) → Prop
  | nil : Covers [] []
  | run {pattern line rest} : '\n' ∉ line → Covers pattern rest → Covers ('*' :: pattern) (line ++ rest)
  | one {pattern c rest} : c ≠ '\n' → Covers pattern rest → Covers ('?' :: pattern) (c :: rest)
  | exactly {pattern c rest} : c ≠ '*' → c ≠ '?' → Covers pattern rest → Covers (c :: pattern) (c :: rest)

variable {pattern name : List Char} {c : Char}

theorem covers_nil_iff : Covers [] name ↔ name = [] :=
  ⟨fun h => by cases h; rfl, fun h => h ▸ .nil⟩

theorem covers_run_iff :
    Covers ('*' :: pattern) name ↔ ∃ line rest, name = line ++ rest ∧ '\n' ∉ line ∧ Covers pattern rest := by
  constructor
  · intro h
    cases h with
    | run hline hrest => exact ⟨_, _, rfl, hline, hrest⟩
    | exactly hrun => exact absurd rfl hrun
  · rintro ⟨line, rest, rfl, hline, hrest⟩
    exact .run hline hrest

theorem covers_one_iff :
    Covers ('?' :: pattern) name ↔ ∃ c rest, name = c :: rest ∧ c ≠ '\n' ∧ Covers pattern rest := by
  constructor
  · intro h
    cases h with
    | one hc hrest => exact ⟨_, _, rfl, hc, hrest⟩
    | exactly _ hone => exact absurd rfl hone
  · rintro ⟨c, rest, rfl, hc, hrest⟩
    exact .one hc hrest

theorem covers_exactly_iff (hrun : c ≠ '*') (hone : c ≠ '?') :
    Covers (c :: pattern) name ↔ ∃ rest, name = c :: rest ∧ Covers pattern rest := by
  constructor
  · intro h
    cases h with
    | run => exact absurd rfl hrun
    | one => exact absurd rfl hone
    | exactly _ _ hrest => exact ⟨_, rfl, hrest⟩
  · rintro ⟨rest, rfl, hrest⟩
    exact .exactly hrun hone hrest

/-- Without wildcards a pattern covers itself alone. -/
theorem covers_iff_eq (hrun : '*' ∉ pattern) (hone : '?' ∉ pattern) : Covers pattern name ↔ name = pattern := by
  induction pattern generalizing name with
  | nil => exact covers_nil_iff
  | cons c pattern ih =>
    simp only [List.mem_cons, not_or] at hrun hone
    rw [covers_exactly_iff (Ne.symm hrun.1) (Ne.symm hone.1)]
    simp only [ih hrun.2 hone.2]
    exact exists_eq_right

/-- What covers a pattern in two parts comes in two parts. -/
theorem covers_append_iff {more : List Char} : Covers (pattern ++ more) name ↔
    ∃ front rest, name = front ++ rest ∧ Covers pattern front ∧ Covers more rest := by
  constructor
  · intro h
    induction pattern generalizing name with
    | nil => exact ⟨[], name, rfl, .nil, h⟩
    | cons c pattern ih =>
      cases h with
      | run hline hrest =>
        obtain ⟨front, rest, rfl, hfront, hmore⟩ := ih hrest
        exact ⟨_, rest, (List.append_assoc ..).symm, .run hline hfront, hmore⟩
      | one hc hrest =>
        obtain ⟨front, rest, rfl, hfront, hmore⟩ := ih hrest
        exact ⟨_ :: front, rest, rfl, .one hc hfront, hmore⟩
      | exactly hrun hone hrest =>
        obtain ⟨front, rest, rfl, hfront, hmore⟩ := ih hrest
        exact ⟨c :: front, rest, rfl, .exactly hrun hone hfront, hmore⟩
  · rintro ⟨front, rest, rfl, hfront, hmore⟩
    induction hfront with
    | nil => exact hmore
    | run hline _ ih => rw [List.append_assoc]; exact .run hline ih
    | one hc _ ih => exact .one hc ih
    | exactly hrun hone _ ih => exact .exactly hrun hone ih

/-! ## The translation -/

namespace NamePattern

open RegexSign

variable {E : RegexEngine} {t : Translation} {done : List Char}

/-- What is written takes what the characters cover that were read. -/
def Translation.Follows (E : RegexEngine) (t : Translation) (done : List Char) : Prop :=
  ∃ signs, t.expr = writtenAll E (.textStart :: signs) ∧ ∀ before piece after,
    Take before piece after (signs ++ [.literal t.literal]) ↔ Covers done piece

theorem Translation.follows_nil : Translation.Follows E {} [] := by
  refine ⟨[], rfl, fun before piece after => ?_⟩
  rw [List.nil_append, take_singleton_iff, covers_nil_iff]
  rfl

/-- The characters since the last wildcard become one more sign. -/
theorem Translation.Follows.flushed (h : Follows E t done) :
    ∃ signs, t.flushed E = writtenAll E (.textStart :: signs) ∧ ∀ before piece after,
      Take before piece after signs ↔ Covers done piece := by
  obtain ⟨signs, hexpr, htake⟩ := h
  refine ⟨signs ++ [.literal t.literal], ?_, htake⟩
  rw [Translation.flushed, hexpr, ← List.cons_append, writtenAll_concat]
  rfl

/-- A wildcard becomes a sign of its own. -/
theorem Translation.Follows.wildcard {sign : RegexSign} (h : Follows E t done)
    (hsign : ∀ before piece after, sign.Takes before piece after ↔ Covers [c] piece) :
    Follows E { expr := t.flushed E ++ sign.written E } (done ++ [c]) := by
  obtain ⟨signs, hflushed, htake⟩ := h.flushed
  refine ⟨signs ++ [sign], ?_, fun before piece after => ?_⟩
  · rw [hflushed, ← List.cons_append, writtenAll_concat]
  · rw [take_concat_iff, covers_append_iff]
    -- no character has been read since
    constructor
    · rintro ⟨_, _, rfl, hfirst, rfl⟩
      obtain ⟨first, rest, rfl, hfirst, hrest⟩ := take_concat_iff.1 hfirst
      exact ⟨first, rest, List.append_nil _, (htake ..).1 hfirst, (hsign ..).1 hrest⟩
    · rintro ⟨first, rest, rfl, hfirst, hrest⟩
      refine ⟨first ++ rest, [], (List.append_nil _).symm, take_concat_iff.2 ?_, rfl⟩
      exact ⟨first, rest, rfl, (htake ..).2 hfirst, (hsign ..).2 hrest⟩

theorem Translation.Follows.plain (h : Follows E t done) (hrun : c ≠ '*') (hone : c ≠ '?') :
    Follows E { t with literal := t.literal.push c } (done ++ [c]) := by
  obtain ⟨signs, hexpr, htake⟩ := h
  refine ⟨signs, hexpr, fun before piece after => ?_⟩
  have hself {rest : List Char} : Covers [c] rest ↔ rest = [c] := by
    rw [covers_exactly_iff hrun hone]
    simp only [covers_nil_iff, exists_eq_right]
  rw [take_concat_iff, covers_append_iff]
  simp only [hself, ← htake before _ (c :: after), take_concat_iff, Takes, String.toList_push]
  constructor
  · rintro ⟨first, _, rfl, hfirst, rfl⟩
    refine ⟨first ++ t.literal.toList, [c], (List.append_assoc ..).symm, ⟨first, _, rfl, ?_, rfl⟩, rfl⟩
    rwa [List.append_assoc] at hfirst
  · rintro ⟨_, _, rfl, ⟨first, _, rfl, hfirst, rfl⟩, rfl⟩
    refine ⟨first, _, List.append_assoc .., ?_, rfl⟩
    rwa [List.append_assoc]

theorem covers_run_singleton : Covers ['*'] name ↔ '\n' ∉ name := by
  refine covers_run_iff.trans ⟨?_, fun h => ⟨name, [], (List.append_nil _).symm, h, .nil⟩⟩
  rintro ⟨line, rest, rfl, hline, hrest⟩
  rwa [covers_nil_iff.1 hrest, List.append_nil]

theorem covers_one_singleton : Covers ['?'] name ↔ ∃ c, name = [c] ∧ c ≠ '\n' := by
  simp only [covers_one_iff, covers_nil_iff]
  constructor
  · rintro ⟨c, _, rfl, hc, rfl⟩
    exact ⟨c, rfl, hc⟩
  · rintro ⟨c, rfl, hc⟩
    exact ⟨c, [], rfl, hc, rfl⟩

/-- The translation stays in step when it takes a character. -/
theorem Translation.Follows.next (h : Follows E t done) (c : Char) :
    Follows E (t.next E c) (done ++ [c]) := by
  rw [Translation.next]
  by_cases hrun : c = '*'
  · subst hrun
    have hsign (before piece after : List Char) :
        RegexSign.anyRun.Takes before piece after ↔ Covers ['*'] piece := covers_run_singleton.symm
    exact h.wildcard hsign
  · by_cases hone : c = '?'
    · subst hone
      have hsign (before piece after : List Char) :
          RegexSign.anyChar.Takes before piece after ↔ Covers ['?'] piece := covers_one_singleton.symm
      exact h.wildcard hsign
    · rw [if_neg (not_or.2 ⟨hrun, hone⟩)]
      exact h.plain hrun hone

theorem Translation.Follows.foldl (h : Follows E t done) (pattern : List Char) :
    Follows E (pattern.foldl (Translation.next E) t) (done ++ pattern) := by
  induction pattern generalizing t done with
  | nil => rwa [List.append_nil]
  | cons c pattern ih =>
    rw [List.append_cons]
    exact ih (h.next c)

/-- The whole expression takes the names that the pattern covers, from end to end. -/
theorem exists_signs (E : RegexEngine) (pattern : String) :
    ∃ signs, wildcardExpression E pattern = writtenAll E signs ∧ ∀ name : List Char,
      (∃ before piece after, name = before ++ piece ++ after ∧ Take before piece after signs) ↔
        Covers pattern.toList name := by
  obtain ⟨signs, hflushed, htake⟩ := (Translation.follows_nil.foldl pattern.toList : Translation.Follows E _ _).flushed
  rw [List.nil_append] at htake
  refine ⟨.textStart :: (signs ++ [.textEnd]), ?_, fun name => ?_⟩
  · rw [wildcardExpression, hflushed, ← List.cons_append, writtenAll_concat]
    rfl
  · simp only [take_cons_iff, take_concat_iff, htake, Takes]
    constructor
    · rintro ⟨_, _, _, rfl, _, _, rfl, ⟨rfl, rfl⟩, _, _, rfl, hcovers, rfl, rfl⟩
      simpa using hcovers
    · intro hcovers
      exact ⟨[], name, [], by simp, [], name, rfl, ⟨rfl, rfl⟩, name, [], (List.append_nil _).symm, hcovers,
        rfl, rfl⟩

variable (hE : E.Documented)
include hE

/-- The expression of a pattern compiles, and matches what the pattern covers. -/
theorem isMatch_wildcardExpression (pattern : String) :
    ∃ r, E.compile (wildcardExpression E pattern) = some r ∧
      ∀ name, r.isMatch name = true ↔ Covers pattern.toList name.toList := by
  obtain ⟨signs, hexpr, htake⟩ := exists_signs E pattern
  rw [hexpr]
  obtain ⟨r, hr⟩ := hE.compiles signs
  exact ⟨r, hr, fun name => (hE.isMatch signs r hr name).trans (htake _)⟩

theorem holds_ofWildcard_iff (pattern name : String) :
    (ofWildcard E pattern).holds name = true ↔ Covers pattern.toList name.toList := by
  rw [ofWildcard]
  split
  · obtain ⟨r, hr, hmatch⟩ := isMatch_wildcardExpression hE pattern
    rw [hr]
    exact hmatch name
  · rename_i h
    simp only [hasWildcard, Bool.not_eq_true, List.any_eq_false, Bool.or_eq_true, beq_iff_eq, not_or] at h
    rw [holds, beq_iff_eq, covers_iff_eq (fun hmem => (h _ hmem).1 rfl) (fun hmem => (h _ hmem).2 rfl),
      String.toList_inj, eq_comm]

/-- With an engine that keeps to its manual, a name satisfies a wildcard pattern if it can be cut along it,
and a pattern without wildcards is satisfied by the equal name alone. -/
theorem holds_ofWildcard (pattern : String) :
    (∀ name, (ofWildcard E pattern).holds name = true ↔ Covers pattern.toList name.toList) ∧
    ('*' ∉ pattern.toList → '?' ∉ pattern.toList →
      ∀ name, (ofWildcard E pattern).holds name = true ↔ name = pattern) := by
  refine ⟨holds_ofWildcard_iff hE pattern, fun hrun hone name => ?_⟩
  rw [holds_ofWildcard_iff hE, covers_iff_eq hrun hone, String.toList_inj]

omit hE

/-- Dots and dollars have no meaning in a pattern, and no wildcard takes a line feed. -/
theorem holds_ofWildcard_dollar :
    Regex.engine.Documented ∧
      ('*' ∉ "a.b".toList ∧ '?' ∉ "a.b".toList ∧ (ofWildcard Regex.engine "a.b").holds "axb" = false) ∧
      Covers "Outer$I*?".toList "Outer$Inner1".toList ∧ ¬ Covers "a?*".toList "ab\nc".toList := by
  have hE := Regex.engine_documented
  refine ⟨hE, ⟨by decide, by decide, ?_⟩, ((holds_ofWildcard hE "Outer$I*?").1 _).1 (by decide), fun h => ?_⟩
  · have := (holds_ofWildcard hE "a.b").2 (by decide) (by decide) "axb"
    rw [Bool.eq_false_iff, Ne, this]
    decide
  · have := ((holds_ofWildcard hE "a?*").1 "ab\nc").2 h
    exact absurd this (by decide)

end NamePattern

end Interpose
