import Mathlib.Data.List.DropRight
import Interpose.Engine.Config
import Interpose.Proofs.Text.Paths
/-!
# Configurations and their texts

What a text says of the namespace and of the directory is never empty, holds no semicolon, and has no
blank at its ends (`IsValue`). Such values pass through the text of a configuration unchanged, whatever
else is in them, further `=` included. A text that was read and written once is in normal form.

Reading undoes writing if some text names the directory. Otherwise the directory is written as it is shown,
with replacement characters, and what is read is the directory that is named like that.

Results:
* `Writable.parse`: whatever a text says, it denotes a configuration with such values.
* `parse_text`: what is read from the text of a configuration with such values.
* `parse_normal_form`: the normal form, and which configurations are read from their texts.
* `parse_text_broken`: one that is not.
-/

namespace Interpose

namespace EngineConfig

variable {pair xs ys : List Char} {c : EngineConfig}

/-- A text that can stand for itself in a pair. -/
structure IsValue (text : String) : Prop where
  nonempty : text ≠ ""
  undivided : ';' ∉ text.toList
  start : ∀ x, text.toList.head? = some x → isBlank x = false
  stop : ∀ x, text.toList.getLast? = some x → isBlank x = false

theorem IsValue.of_ends {text : String} (hnonempty : text ≠ "") (hundivided : ';' ∉ text.toList)
    (hstart : text.toList.head?.all (fun x => !isBlank x) = true)
    (hstop : text.toList.getLast?.all (fun x => !isBlank x) = true) : IsValue text where
  nonempty := hnonempty
  undivided := hundivided
  start x hx := by simpa [hx] using hstart
  stop x hx := by simpa [hx] using hstop

/-- The values of the configuration can stand for themselves. -/
structure Writable (c : EngineConfig) : Prop where
  space : IsValue c.space
  dumpPath : ∀ path, c.dumpPath = some path → IsValue path.display

/-! ## Blanks at the ends -/

theorem dropWhile_of_head {p : Char → Bool} (h : ∀ x, xs.head? = some x → p x = false) :
    xs.dropWhile p = xs := by
  cases xs with
  | nil => rfl
  | cons x xs => rw [List.dropWhile_cons_of_neg (Bool.eq_false_iff.1 (h x rfl))]

theorem trimmed_of_ends (hstart : ∀ x, xs.head? = some x → isBlank x = false)
    (hstop : ∀ x, xs.getLast? = some x → isBlank x = false) : trimmed xs = xs := by
  rw [trimmed, dropWhile_of_head hstart, dropWhile_of_head (by rwa [List.head?_reverse]),
    List.reverse_reverse]

theorem trimmed_sublist (xs : List Char) : (trimmed xs).Sublist xs :=
  (List.rdropWhile_prefix isBlank (xs.dropWhile isBlank)).sublist.trans (List.dropWhile_sublist _)

theorem head?_trimmed {x : Char} (h : (trimmed xs).head? = some x) : isBlank x = false := by
  obtain ⟨rest, hrest⟩ := List.rdropWhile_prefix isBlank (xs.dropWhile isBlank)
  change trimmed xs ++ rest = _ at hrest
  have hhead : (xs.dropWhile isBlank).head? = some x := by rw [← hrest, List.head?_append, h]; rfl
  have := List.head?_dropWhile_not isBlank xs
  rwa [hhead] at this

theorem getLast?_trimmed {x : Char} (h : (trimmed xs).getLast? = some x) : isBlank x = false := by
  rw [trimmed, List.getLast?_reverse] at h
  have := List.head?_dropWhile_not isBlank (xs.dropWhile isBlank).reverse
  rwa [h] at this

/-- What is left of a text between semicolons can stand for itself. -/
theorem isValue_trimmed (hxs : ';' ∉ xs) (hne : (trimmed xs).isEmpty = false) :
    IsValue (String.ofList (trimmed xs)) where
  nonempty h := by
    have := congrArg String.toList h
    rw [String.toList_ofList] at this
    rw [this] at hne
    cases hne
  undivided := by
    rw [String.toList_ofList]
    exact fun h => hxs ((trimmed_sublist xs).subset h)
  start x h := head?_trimmed (by rwa [String.toList_ofList] at h)
  stop x h := getLast?_trimmed (by rwa [String.toList_ofList] at h)

/-! ## Pairs -/

theorem pieces_ne_nil (separator : Char) (xs : List Char) : pieces separator xs ≠ [] := by
  cases xs with
  | nil => exact List.cons_ne_nil _ _
  | cons x xs =>
    rw [pieces]
    split
    · exact List.cons_ne_nil _ _
    · split <;> exact List.cons_ne_nil _ _

/-- A character that is no separator belongs to the first piece. -/
theorem pieces_cons_of_ne {separator x : Char} (h : x ≠ separator) (xs : List Char) : ∃ first others,
    pieces separator xs = first :: others ∧ pieces separator (x :: xs) = (x :: first) :: others := by
  rw [pieces, if_neg h]
  cases hxs : pieces separator xs with
  | nil => exact absurd hxs (pieces_ne_nil separator xs)
  | cons first others => exact ⟨first, others, rfl, rfl⟩

theorem pieces_of_not_mem {separator : Char} (h : separator ∉ xs) : pieces separator xs = [xs] := by
  induction xs with
  | nil => rfl
  | cons x xs ih =>
    obtain ⟨hx, hxs⟩ := not_or.1 (List.mem_cons.not.1 h)
    obtain ⟨first, others, hfirst, hcons⟩ := pieces_cons_of_ne (Ne.symm hx) xs
    rw [ih hxs] at hfirst
    cases hfirst
    exact hcons

theorem pieces_append {separator : Char} (h : separator ∉ xs) :
    pieces separator (xs ++ separator :: ys) = xs :: pieces separator ys := by
  induction xs with
  | nil => rw [List.nil_append, pieces, if_pos rfl]
  | cons x xs ih =>
    obtain ⟨hx, hxs⟩ := not_or.1 (List.mem_cons.not.1 h)
    obtain ⟨first, others, hfirst, hcons⟩ :=
      pieces_cons_of_ne (Ne.symm hx) (xs ++ separator :: ys)
    rw [ih hxs] at hfirst
    cases hfirst
    exact hcons

theorem not_mem_of_mem_pieces {separator : Char} {piece : List Char}
    (h : piece ∈ pieces separator xs) : separator ∉ piece := by
  induction xs generalizing piece with
  | nil =>
    cases List.mem_singleton.1 h
    exact List.not_mem_nil
  | cons x xs ih =>
    by_cases hx : x = separator
    · rw [pieces, if_pos hx] at h
      rcases List.mem_cons.1 h with rfl | h
      · exact List.not_mem_nil
      · exact ih h
    · obtain ⟨first, others, hfirst, hcons⟩ := pieces_cons_of_ne hx xs
      rw [hcons] at h
      rcases List.mem_cons.1 h with rfl | h
      · exact List.mem_cons.not.2 (not_or.2 ⟨Ne.symm hx, ih (by rw [hfirst]; exact List.mem_cons_self)⟩)
      · exact ih (by rw [hfirst]; exact List.mem_cons_of_mem _ h)

/-- Only the first `=` parts a pair. -/
theorem keyAndValue_append {key value : List Char} (h : '=' ∉ key) :
    keyAndValue (key ++ '=' :: value) = some (trimmed key, trimmed value) := by
  have hkey : ∀ x ∈ key, decide (x ≠ '=') = true := fun x hx => decide_eq_true fun e => h (e ▸ hx)
  rw [keyAndValue, List.dropWhile_append_of_pos hkey, List.takeWhile_append_of_pos hkey]
  simp

theorem keyAndValue_eq_some {key value : List Char} (h : keyAndValue pair = some (key, value)) :
    ∃ behind, behind <:+ pair ∧ value = trimmed behind := by
  rw [keyAndValue] at h
  split at h
  · cases h
  · rename_i first behind hdrop
    cases h
    exact ⟨behind, ((List.suffix_cons first behind).trans (hdrop ▸ List.dropWhile_suffix _)), rfl⟩

/-! ## Reading keeps values fit for writing -/

theorem Writable.apply (h : c.Writable) (hpair : ';' ∉ pair) : (c.apply pair).Writable := by
  rw [EngineConfig.apply]
  split
  · exact h
  · rename_i key value hkv
    obtain ⟨behind, hbehind, rfl⟩ := keyAndValue_eq_some hkv
    have hundivided : ';' ∉ behind := fun hmem => hpair (hbehind.subset hmem)
    dsimp only
    split
    · exact h
    · rename_i hempty
      have hvalue := isValue_trimmed hundivided (Bool.eq_false_iff.2 hempty)
      split
      · exact ⟨hvalue, h.dumpPath⟩
      split
      · exact ⟨h.space, h.dumpPath⟩
      split
      · refine ⟨h.space, fun path hpath => ?_⟩
        rwa [← Option.some.inj hpath, Path.display_ofText]
      · exact h

theorem Writable.foldl (h : c.Writable) {pairs : List (List Char)} (hpairs : ∀ pair ∈ pairs, ';' ∉ pair) :
    (pairs.foldl EngineConfig.apply c).Writable := by
  induction pairs generalizing c with
  | nil => exact h
  | cons pair pairs ih =>
    exact ih (h.apply (hpairs pair List.mem_cons_self))
      fun p hp => hpairs p (List.mem_cons_of_mem _ hp)

theorem writable_default : Writable {} where
  space := .of_ends (by decide) (by decide) (by decide) (by decide)
  dumpPath := nofun

theorem Writable.parse (f : String) : (parse f).Writable :=
  writable_default.foldl fun _ hpair => not_mem_of_mem_pieces hpair

/-! ## Reading what was written -/

/-- A key has no `=` and no blank at its ends. -/
structure IsKey (key : List Char) : Prop where
  unparted : '=' ∉ key
  trimmed : EngineConfig.trimmed key = key

/-- A pair of a key and a value is applied as these two. -/
theorem apply_of_isValue {key : List Char} {value : String} (hkey : IsKey key) (hvalue : IsValue value) :
    c.apply (key ++ '=' :: value.toList) =
      if key = "namespace".toList then { c with space := value }
      else if key = "unsafe.enable".toList then
        { c with enableUnsafe := value.toList.map Char.toLower = "true".toList }
      else if key = "dump.path".toList then { c with dumpPath := some (.ofText value) }
      else c := by
  have hkv : keyAndValue (key ++ '=' :: value.toList) = some (key, value.toList) := by
    rw [keyAndValue_append hkey.unparted, hkey.trimmed, trimmed_of_ends hvalue.start hvalue.stop]
  have hempty : value.toList.isEmpty ≠ true := by
    rw [Ne, List.isEmpty_iff, String.toList_eq_nil_iff]
    exact hvalue.nonempty
  rw [EngineConfig.apply, hkv]
  dsimp only
  rw [if_neg hempty, String.ofList_toList]

theorem isValue_describedBool (b : Bool) : IsValue (describedBool b) := by
  cases b <;> exact .of_ends (by decide) (by decide) (by decide) (by decide)

def pairs (c : EngineConfig) : List (List Char) :=
  ["namespace".toList ++ '=' :: c.space.toList,
    "unsafe.enable".toList ++ '=' :: (describedBool c.enableUnsafe).toList] ++
    (c.dumpPath.map fun path => "dump.path".toList ++ '=' :: path.display.toList).toList

/-- The text of a configuration is cut where its pairs end, and nowhere else. -/
theorem pieces_text (h : c.Writable) : pieces ';' c.text.toList = c.pairs := by
  have hspace : ';' ∉ "namespace".toList ++ '=' :: c.space.toList := by
    simpa using h.space.undivided
  have hunsafe : ';' ∉ "unsafe.enable".toList ++ '=' :: (describedBool c.enableUnsafe).toList := by
    simpa using (isValue_describedBool c.enableUnsafe).undivided
  cases hdump : c.dumpPath with
  | none =>
    have htext : c.text.toList = ("namespace".toList ++ '=' :: c.space.toList) ++
        ';' :: ("unsafe.enable".toList ++ '=' :: (describedBool c.enableUnsafe).toList) := by
      simp [text, hdump]
    rw [htext, pieces_append hspace, pieces_of_not_mem hunsafe, pairs, hdump]
    rfl
  | some path =>
    have hpath : ';' ∉ "dump.path".toList ++ '=' :: path.display.toList := by
      simpa using (h.dumpPath path hdump).undivided
    have htext : c.text.toList = ("namespace".toList ++ '=' :: c.space.toList) ++
        ';' :: (("unsafe.enable".toList ++ '=' :: (describedBool c.enableUnsafe).toList) ++
          ';' :: ("dump.path".toList ++ '=' :: path.display.toList)) := by
      simp [text, hdump]
    rw [htext, pieces_append hspace, pieces_append hunsafe, pieces_of_not_mem hpath, pairs, hdump]
    rfl

/-- The configuration with the directory that is named as the configured one is shown. -/
def shown (c : EngineConfig) : EngineConfig :=
  { c with dumpPath := c.dumpPath.map fun path => .ofText path.display }

theorem parse_text (h : c.Writable) : parse c.text = c.shown := by
  have hbool : decide ((describedBool c.enableUnsafe).toList.map Char.toLower = "true".toList) =
      c.enableUnsafe := by
    cases c.enableUnsafe <;> rfl
  rw [parse, pieces_text h, pairs, List.foldl_append, List.foldl_cons, List.foldl_cons, List.foldl_nil,
    apply_of_isValue ⟨by decide, by decide⟩ h.space,
    apply_of_isValue ⟨by decide, by decide⟩ (isValue_describedBool _)]
  rw [if_pos rfl, if_neg (by decide), if_pos rfl, hbool, shown]
  cases hdump : c.dumpPath with
  | none => rfl
  | some path =>
    rw [Option.map_some, Option.toList_some, List.foldl_cons, List.foldl_nil,
      apply_of_isValue ⟨by decide, by decide⟩ (h.dumpPath path hdump), if_neg (by decide),
      if_neg (by decide), if_pos rfl]
    rfl

/-- A configuration is as it is shown if a text names its directory. -/
theorem shown_eq_iff : c.shown = c ↔ ∀ path, c.dumpPath = some path → ∃ text, path = .ofText text := by
  obtain ⟨space, enableUnsafe, dumpPath⟩ := c
  cases dumpPath with
  | none => simp [shown]
  | some path => simp [shown, Path.ofText_display_iff]

/-- Texts name no other directories. -/
theorem shown_apply (h : c.shown = c) : (c.apply pair).shown = c.apply pair := by
  rw [EngineConfig.apply]
  split
  · exact h
  dsimp only
  split
  · exact h
  rw [shown_eq_iff] at h ⊢
  split
  · exact h
  split
  · exact h
  split
  · exact fun path hpath => ⟨_, (Option.some.inj hpath).symm⟩
  · exact h

theorem shown_parse (f : String) : (parse f).shown = parse f := by
  have hfoldl (pairs : List (List Char)) {c : EngineConfig} (h : c.shown = c) :
      (pairs.foldl EngineConfig.apply c).shown = pairs.foldl EngineConfig.apply c := by
    induction pairs generalizing c with
    | nil => exact h
    | cons pair pairs ih => exact ih (shown_apply h)
  exact hfoldl _ rfl

/-- A text that was read and written means what it meant. From the text of a configuration whose values can
stand for themselves the configuration is read as it is shown; that is the same configuration exactly if some
text names its directory. -/
theorem parse_normal_form (f : String) (c : EngineConfig) :
    parse (parse f).text = parse f ∧
      (c.Writable → parse c.text = c.shown ∧
        (parse c.text = c ↔ ∀ path, c.dumpPath = some path → ∃ text, path = .ofText text)) := by
  refine ⟨(parse_text (Writable.parse f)).trans (shown_parse f), fun h => ⟨parse_text h, ?_⟩⟩
  rw [parse_text h, shown_eq_iff]

/-- Values with `=` and blanks in them, and a text with every kind of pair that does not count. -/
theorem parse_normal_form_hard :
    parse (parse ";; x;=y;namespace= a = b ;color=red;unsafe.enable=TRUE;dump.path=;namespace=").text =
        ⟨"a = b", true, none⟩ ∧
      Writable ⟨"a = b", true, some (.ofText "/tmp/x=1")⟩ ∧
      parse (text ⟨"a = b", true, some (.ofText "/tmp/x=1")⟩) = ⟨"a = b", true, some (.ofText "/tmp/x=1")⟩ := by
  have hwritable : Writable ⟨"a = b", true, some (.ofText "/tmp/x=1")⟩ := by
    refine ⟨.of_ends (by decide) (by decide) (by decide) (by decide), fun path hpath => ?_⟩
    rw [← Option.some.inj hpath, Path.display_ofText]
    exact .of_ends (by decide) (by decide) (by decide) (by decide)
  have h := parse_normal_form ";; x;=y;namespace= a = b ;color=red;unsafe.enable=TRUE;dump.path=;namespace="
    ⟨"a = b", true, some (.ofText "/tmp/x=1")⟩
  refine ⟨h.1.trans (by decide), hwritable, ?_⟩
  exact (h.2 hwritable).2.2 fun path hpath => ⟨_, (Option.some.inj hpath).symm⟩

/-- A directory with a byte that is in no character. -/
def broken : EngineConfig where
  dumpPath := some ⟨(Path.ofText "/tmp/").bytes ++ [0xFF]⟩

/-- Such a directory is not read back, although what it shows can stand for itself. -/
theorem parse_text_broken : broken.Writable ∧ parse broken.text ≠ broken := by
  have hwritable : broken.Writable := by
    refine ⟨.of_ends (by decide) (by decide) (by decide) (by decide), fun path hpath => ?_⟩
    cases hpath
    exact .of_ends (by decide) (by decide) (by decide) (by decide)
  refine ⟨hwritable, ?_⟩
  rw [parse_text hwritable]
  decide

end EngineConfig

end Interpose
