import Mathlib.Data.List.TakeWhile
import Interpose.Descriptor
/-!
# The grammar of descriptors

Which texts are descriptors, said by their grammar (`FieldText`, `MethodText`) and not by the reader.

Results:
* `JavaType.read_eq_ok`: what is read off the front of a text is the spelling of a type, whatever comes
  behind it.
* `JavaType.ofDescriptor_eq_ok`, `MethodDescriptor.ofDescriptor_eq_ok`: reading and printing are inverse
  to each other on the types that can be spelled.
* `descriptors_exact`: the texts that can be read are those of the grammar.
-/

namespace Interpose

/-- A field type: a letter, `L` name `;` with a name that is not empty and has no `;`, or `[` and a
field type. -/
inductive FieldText : List Char → Prop
  | letter {c : Char} : c ∈ ['Z', 'B', 'C', 'S', 'I', 'J', 'F', 'D'] → FieldText [c]
  | object {name : List Char} : name ≠ [] → ';' ∉ name → FieldText ('L' :: (name ++ [';']))
  | array {s : List Char} : FieldText s → FieldText ('[' :: s)

/-- Field types in parentheses, and behind them a field type or `V`. -/
inductive MethodText : List Char → Prop
  | intro {parameters : List (List Char)} {result : List Char} : (∀ p ∈ parameters, FieldText p) →
    FieldText result ∨ result = ['V'] → MethodText ('(' :: (parameters.flatten ++ ')' :: result))

namespace JavaType

/-- Class names are not empty and have no `;`, and no array holds `void`. -/
def Spellable : JavaType → Prop
  | object name => name ≠ "" ∧ ';' ∉ name.toList
  | array component => component ≠ void ∧ component.Spellable
  | _ => True

variable {s rest : List Char} {t : JavaType}

/-- What a name is cut off at. -/
theorem takeWhile_name (rest : List Char) {name : List Char} (h : ';' ∉ name) :
    (name ++ ';' :: rest).takeWhile (· != ';') = name ∧
      (name ++ ';' :: rest).dropWhile (· != ';') = ';' :: rest := by
  have hname : ∀ c ∈ name, (c != ';') = true := fun c hc => bne_iff_ne.2 fun e => h (e ▸ hc)
  rw [List.takeWhile_append_of_pos hname, List.dropWhile_append_of_pos hname]
  exact ⟨List.append_nil name, rfl⟩

/-- A type is read off the front of a text exactly if the text starts with its spelling. -/
theorem read_eq_ok : read s = .ok (t, rest) ↔ t.Spellable ∧ s = t.spell ++ rest := by
  constructor
  · intro h
    fun_induction read s generalizing t rest with
    | case13 tail stop after hdrop hname =>
      cases h
      have hclean : ';' ∉ tail.takeWhile (· != ';') := fun hmem => by
        have := List.mem_takeWhile_imp hmem
        simp at this
      have hstop : stop = ';' := by
        have := List.head?_dropWhile_not (· != ';') tail
        rw [hdrop] at this
        simpa using this
      have hparts := List.takeWhile_append_dropWhile (p := (· != ';')) (l := tail)
      rw [hdrop, hstop] at hparts
      refine ⟨⟨fun he => hname ?_, ?_⟩, ?_⟩
      · rwa [← String.toList_inj, String.toList_ofList] at he
      · rwa [String.toList_ofList]
      · rw [spell, String.toList_ofList, List.cons_append, List.append_assoc, List.singleton_append,
          hparts]
    | case16 tail component after hvoid hread ih =>
      cases h
      obtain ⟨hc, rfl⟩ := ih hread
      exact ⟨⟨hvoid, hc⟩, rfl⟩
    | _ => cases h <;> exact ⟨trivial, rfl⟩
  · rintro ⟨ht, rfl⟩
    induction t with
    | object name =>
      obtain ⟨hname, hclean⟩ := ht
      have hne : name.toList ≠ [] := fun he => hname (String.toList_inj.1 he)
      obtain ⟨htake, hdrop⟩ := takeWhile_name rest hclean
      rw [spell, List.cons_append, List.append_assoc, List.singleton_append, read, htake, hdrop]
      cases hcs : name.toList with
      | nil => exact absurd hcs hne
      | cons c cs =>
        rw [← String.ofList_toList (s := name), hcs]
    | array component ih =>
      rw [spell, List.cons_append, read, ih ht.2]
      cases component with
      | void => exact absurd rfl ht.1
      | _ => rfl
    | _ => rfl

/-- The texts of field types are the spellings of types other than `void`. -/
theorem fieldText_iff : FieldText s ↔ ∃ t : JavaType, t.Spellable ∧ t ≠ void ∧ t.spell = s := by
  constructor
  · intro h
    induction h with
    | @letter c hc =>
      simp only [List.mem_cons, List.not_mem_nil, or_false] at hc
      rcases hc with rfl | rfl | rfl | rfl | rfl | rfl | rfl | rfl
      · exact ⟨boolean, trivial, nofun, rfl⟩
      · exact ⟨byte, trivial, nofun, rfl⟩
      · exact ⟨char, trivial, nofun, rfl⟩
      · exact ⟨short, trivial, nofun, rfl⟩
      · exact ⟨int, trivial, nofun, rfl⟩
      · exact ⟨long, trivial, nofun, rfl⟩
      · exact ⟨float, trivial, nofun, rfl⟩
      · exact ⟨double, trivial, nofun, rfl⟩
    | @object name hne hclean =>
      refine ⟨object (String.ofList name), ⟨fun he => hne ?_, ?_⟩, nofun, ?_⟩
      · rwa [← String.toList_inj, String.toList_ofList] at he
      · rwa [String.toList_ofList]
      · rw [spell, String.toList_ofList]
    | array _ ih =>
      obtain ⟨t, ht, hvoid, rfl⟩ := ih
      exact ⟨array t, ⟨hvoid, ht⟩, nofun, rfl⟩
  · rintro ⟨t, ht, hvoid, rfl⟩
    induction t with
    | void => exact absurd rfl hvoid
    | object name => exact .object (fun he => ht.1 (String.toList_inj.1 he)) ht.2
    | array component ih => exact .array (ih ht.2 ht.1)
    | _ => exact .letter (by decide)

/-- The texts of results are the spellings of all types. -/
theorem resultText_iff : FieldText s ∨ s = ['V'] ↔ ∃ t : JavaType, t.Spellable ∧ t.spell = s := by
  rw [fieldText_iff]
  constructor
  · rintro (⟨t, ht, -, rfl⟩ | rfl)
    · exact ⟨t, ht, rfl⟩
    · exact ⟨void, trivial, rfl⟩
  · rintro ⟨t, ht, rfl⟩
    by_cases hvoid : t = void
    · exact .inr (by rw [hvoid]; rfl)
    · exact .inl ⟨t, ht, hvoid, rfl⟩

theorem descriptor_eq_iff {text : String} : t.descriptor = text ↔ t.spell = text.toList := by
  rw [descriptor, ← String.toList_inj, String.toList_ofList]

/-- The type of a whole text is the one that is spelled so. -/
theorem ofDescriptor_eq_ok {text : String} :
    ofDescriptor text = .ok t ↔ t.Spellable ∧ t.descriptor = text := by
  rw [descriptor_eq_iff]
  have hread : read text.toList = .ok (t, []) ↔ t.Spellable ∧ t.spell = text.toList := by
    rw [read_eq_ok, List.append_nil, eq_comm (a := text.toList)]
  rw [← hread]
  unfold ofDescriptor
  split
  · rename_i h
    rw [h]
    exact iff_of_false nofun nofun
  · rename_i h
    rw [h]
    simp
  · rename_i h
    rw [h]
    simp

/-- No type starts like the end of the parameters. -/
theorem head?_spell_ne (t : JavaType) (rest : List Char) : (t.spell ++ rest).head? ≠ some ')' := by
  cases t with
  | object name => simp [spell]
  | array component => simp [spell]
  | _ => simp [spell]

theorem slots_of_ne_void (ht : t ≠ void) :
    t.slots = 1 + if t = long ∨ t = double then 1 else 0 := by
  cases t with
  | void => exact absurd rfl ht
  | _ => rfl

end JavaType

namespace MethodDescriptor

open JavaType

/-- All types can be spelled, and no parameter is `void`. -/
structure Spellable (d : MethodDescriptor) : Prop where
  parameters : ∀ t ∈ d.parameters, t.Spellable ∧ t ≠ void
  returnType : d.returnType.Spellable

/-- Parameter types are read off the front of a text exactly if it starts with their spellings and a
closing parenthesis. -/
theorem readParameters_eq_some {s after : List Char} {ts : List JavaType} :
    readParameters s = some (ts, after) ↔
      (∀ t ∈ ts, t.Spellable ∧ t ≠ void) ∧ s = ts.flatMap JavaType.spell ++ ')' :: after := by
  constructor
  · intro h
    fun_induction readParameters s generalizing ts after with
    | case1 s hclose =>
      cases h
      obtain ⟨tail, rfl⟩ := List.head?_eq_some_iff.1 hclose
      exact ⟨nofun, rfl⟩
    | case2 | case3 => cases h
    | case4 s _ t rest hread _ hvoid ih =>
      obtain ⟨⟨others, after'⟩, hothers, hts⟩ := Option.map_eq_some_iff.1 h
      cases hts
      obtain ⟨ht, rfl⟩ := read_eq_ok.1 hread
      obtain ⟨hall, rfl⟩ := ih hothers
      exact ⟨List.forall_mem_cons.2 ⟨⟨ht, hvoid⟩, hall⟩, by rw [List.flatMap_cons, List.append_assoc]⟩
  · rintro ⟨hall, rfl⟩
    induction ts with
    | nil =>
      rw [readParameters]
      exact if_pos rfl
    | cons t ts ih =>
      obtain ⟨⟨ht, hvoid⟩, hall⟩ := List.forall_mem_cons.1 hall
      rw [List.flatMap_cons, List.append_assoc, readParameters, if_neg (head?_spell_ne t _)]
      have hread := read_eq_ok.2 ⟨ht, Eq.refl (t.spell ++ (ts.flatMap JavaType.spell ++ ')' :: after))⟩
      split
      · rename_i h
        rw [hread] at h
        cases h
      · rename_i h
        rw [hread] at h
        cases h
        rw [if_neg hvoid, ih hall]
        rfl

/-- The method descriptor of a text is the one that is spelled so. -/
theorem ofDescriptor_eq_ok {text : String} {d : MethodDescriptor} :
    ofDescriptor text = .ok d ↔ d.Spellable ∧ d.descriptor = text := by
  have hread : read? text.toList = some d ↔ d.Spellable ∧ d.spell = text.toList := by
    generalize text.toList = s
    constructor
    · intro h
      unfold read? at h
      split at h
      · split at h
        · cases h
        · rename_i parameters after hparameters
          split at h
          · rename_i returnType hresult
            cases h
            obtain ⟨hall, rfl⟩ := readParameters_eq_some.1 hparameters
            obtain ⟨hspellable, rfl⟩ := read_eq_ok.1 hresult
            exact ⟨⟨hall, hspellable⟩, by rw [List.append_nil]; rfl⟩
          · cases h
      · cases h
    · rintro ⟨hd, rfl⟩
      have hparameters := readParameters_eq_some.2 ⟨hd.parameters,
        Eq.refl (d.parameters.flatMap JavaType.spell ++ ')' :: d.returnType.spell)⟩
      have hresult := read_eq_ok.2 ⟨hd.returnType, (List.append_nil d.returnType.spell).symm⟩
      unfold read? spell
      simp only [hparameters, hresult]
  rw [descriptor, ← String.toList_inj, String.toList_ofList, ← hread]
  unfold ofDescriptor
  cases read? text.toList with
  | none => exact iff_of_false nofun nofun
  | some d' => simp

/-- The texts of methods are the spellings of method descriptors. -/
theorem methodText_iff {s : List Char} :
    MethodText s ↔ ∃ d : MethodDescriptor, d.Spellable ∧ d.spell = s := by
  constructor
  · rintro ⟨hparameters, hresult⟩
    rename_i parameters result
    obtain ⟨r, hr, rfl⟩ := resultText_iff.1 hresult
    have htypes : ∃ ts : List JavaType, (∀ t ∈ ts, t.Spellable ∧ t ≠ void) ∧
        ts.flatMap JavaType.spell = parameters.flatten := by
      clear hresult
      induction parameters with
      | nil => exact ⟨[], nofun, rfl⟩
      | cons p parameters ih =>
        obtain ⟨hp, hrest⟩ := List.forall_mem_cons.1 hparameters
        obtain ⟨t, ht, hvoid, rfl⟩ := fieldText_iff.1 hp
        obtain ⟨ts, hts, he⟩ := ih hrest
        exact ⟨t :: ts, List.forall_mem_cons.2 ⟨⟨ht, hvoid⟩, hts⟩, by
          rw [List.flatMap_cons, List.flatten_cons, he]⟩
    obtain ⟨ts, hts, he⟩ := htypes
    exact ⟨⟨ts, r⟩, ⟨hts, hr⟩, by rw [spell, he]⟩
  · rintro ⟨d, hd, rfl⟩
    rw [spell, List.flatMap_def]
    refine .intro (fun p hp => ?_) (resultText_iff.2 ⟨d.returnType, hd.returnType, rfl⟩)
    obtain ⟨t, ht, rfl⟩ := List.mem_map.1 hp
    exact fieldText_iff.2 ⟨t, (hd.parameters t ht).1, (hd.parameters t ht).2, rfl⟩

/-- Parameters take a slot each, and another one if they are wide. -/
theorem parameterSlots_eq {d : MethodDescriptor} (hd : d.Spellable) :
    d.parameterSlots = d.parameters.length + d.parameters.countP fun t => t = long ∨ t = double := by
  have hsum : ∀ ts : List JavaType, (∀ t ∈ ts, t ≠ void) →
      (ts.map slots).foldr (· + ·) 0 = ts.length + ts.countP fun t => t = long ∨ t = double := by
    intro ts hts
    induction ts with
    | nil => rfl
    | cons t ts ih =>
      obtain ⟨ht, hts⟩ := List.forall_mem_cons.1 hts
      have hslots := slots_of_ne_void ht
      rw [List.map_cons, List.foldr_cons, ih hts, hslots, List.length_cons, List.countP_cons]
      simp only [decide_eq_true_eq]
      omega
  exact hsum d.parameters fun t ht => (hd.parameters t ht).2

end MethodDescriptor

/-- The texts that are read as types and as method descriptors are those of the grammar; what is read is
printed as the same text, and whatever can be spelled is read from its text. The parameters take a slot
each and the wide ones two. -/
theorem descriptors_exact :
    (∀ text, (∃ t, JavaType.ofDescriptor text = .ok t) ↔ FieldText text.toList ∨ text = "V") ∧
    (∀ text, (∃ d, MethodDescriptor.ofDescriptor text = .ok d) ↔ MethodText text.toList) ∧
    (∀ text t, JavaType.ofDescriptor text = .ok t ↔ t.Spellable ∧ t.descriptor = text) ∧
    (∀ text d, MethodDescriptor.ofDescriptor text = .ok d ↔ d.Spellable ∧ d.descriptor = text) ∧
    ∀ d : MethodDescriptor, d.Spellable → d.parameterSlots =
      d.parameters.length + d.parameters.countP fun t => t = .long ∨ t = .double := by
  refine ⟨fun text => ?_, fun text => ?_, fun _ _ => JavaType.ofDescriptor_eq_ok,
    fun _ _ => MethodDescriptor.ofDescriptor_eq_ok, fun _ hd => MethodDescriptor.parameterSlots_eq hd⟩
  · have hvoid : text = "V" ↔ text.toList = ['V'] := by
      rw [← String.toList_inj]
      rfl
    rw [hvoid, JavaType.resultText_iff]
    simp only [JavaType.ofDescriptor_eq_ok, JavaType.descriptor_eq_iff]
  · rw [MethodDescriptor.methodText_iff]
    simp only [MethodDescriptor.ofDescriptor_eq_ok, MethodDescriptor.descriptor,
      ← String.toList_inj, String.toList_ofList]

/-- A method with narrow and wide parameters, classes and arrays. -/
theorem descriptors_exact_mixed :
    let d : MethodDescriptor :=
      ⟨[.int, .long, .array (.object "java/lang/String"), .array (.array .double)], .void⟩
    d.Spellable ∧ MethodDescriptor.ofDescriptor "(IJ[Ljava/lang/String;[[D)V" = .ok d ∧
      d.parameterSlots = 5 := by
  intro d
  have hd : d.Spellable := by
    refine ⟨?_, trivial⟩
    simp only [d, List.forall_mem_cons]
    exact ⟨⟨trivial, nofun⟩, ⟨trivial, nofun⟩, ⟨⟨nofun, by decide, by decide⟩, nofun⟩,
      ⟨⟨nofun, nofun, trivial⟩, nofun⟩, nofun⟩
  obtain ⟨-, -, -, hread, hslots⟩ := descriptors_exact
  exact ⟨hd, (hread _ _).2 ⟨hd, by decide +kernel⟩, hslots d hd⟩

end Interpose
