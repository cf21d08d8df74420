import Mathlib.Data.List.Basic
import Interpose.Structure.Type
import Interpose.Proofs.Outcome
/-!
# Signature codes

The signature code `Type#name(param,param)` is a concatenation of names, so it can tell methods apart
only as far as the names can be found in it again. A method name may hold any character. A class name
may not hold a character that the code itself puts between or behind names, and it may not be the name
of a primitive type: a class `int` of the unnamed package is spelled like the primitive type.

Results:
* `JavaType.javaName_inj`: the source-level name of such a type is its own.
* `signCode_inj`: of parameters of such types, the code determines the method name and all types.
* `StructuralType.signCode_eq_iff`: two methods of a type have one code exactly if they are overloads
  with the same name and parameter types.
* `StructuralType.signCode_collides`: other names have collisions.
-/

namespace Interpose

def primitiveNames : List String :=
  ["boolean", "byte", "char", "short", "int", "long", "float", "double"]

/-- A class name, in class-file spelling, that signature codes keep apart from all others: it holds no
character that they put around names, and is not spelled like a primitive type. -/
structure PlainName (name : String) : Prop where
  no_dot : '.' ∉ name.toList
  no_bracket : '[' ∉ name.toList
  no_comma : ',' ∉ name.toList
  no_paren : '(' ∉ name.toList
  not_primitive : name ∉ primitiveNames

instance (name : String) : Decidable (PlainName name) :=
  decidable_of_iff ('.' ∉ name.toList ∧ '[' ∉ name.toList ∧ ',' ∉ name.toList ∧ '(' ∉ name.toList ∧
      name ∉ primitiveNames)
    ⟨fun ⟨h₁, h₂, h₃, h₄, h₅⟩ => ⟨h₁, h₂, h₃, h₄, h₅⟩, fun ⟨h₁, h₂, h₃, h₄, h₅⟩ => ⟨h₁, h₂, h₃, h₄, h₅⟩⟩

/-! ## Names of types -/

theorem toList_toJavaName (name : String) :
    (toJavaName name).toList = name.toList.map fun c => if c = '/' then '.' else c :=
  String.toList_map

/-- A name without dots can be told from its source-level spelling. -/
theorem toInternalName_toJavaName {name : String} (h : '.' ∉ name.toList) :
    toInternalName (toJavaName name) = name := by
  rw [← String.toList_inj, toInternalName, String.toList_map, toList_toJavaName, List.map_map,
    List.map_congr_left (g := id), List.map_id]
  intro c hc
  have hdot : c ≠ '.' := fun heq => h (heq ▸ hc)
  by_cases hslash : c = '/'
  · simp [hslash]
  · simp [hslash, hdot]

theorem not_mem_toJavaName {name : String} {c : Char} (h : c ∉ name.toList) (hdot : c ≠ '.') :
    c ∉ (toJavaName name).toList := by
  rw [toList_toJavaName, List.mem_map]
  rintro ⟨d, hd, rfl⟩
  split at hdot
  · exact hdot rfl
  · rename_i hslash
    rw [if_neg hslash] at h
    exact h hd

namespace JavaType

/-- What an array holds at its innermost level; of another type, the type itself. -/
def element : JavaType → JavaType
  | array component => component.element
  | t => t

/-- The class that a type names, if it names one, has a plain name. -/
def Plain (t : JavaType) : Prop :=
  ∀ name, t.element = object name → PlainName name

instance (t : JavaType) : Decidable t.Plain :=
  match h : t.element with
  | object name => decidable_of_iff (PlainName name) (by simp [Plain, h])
  | boolean | byte | char | short | int | long | float | double | void | array _ =>
    .isTrue (by simp [Plain, h])

theorem isPrimitive_cases (t : JavaType) :
    t.isPrimitive ∨ t = void ∨ (∃ name, t = object name) ∨ ∃ component, t = array component := by
  cases t <;> simp [isPrimitive]

theorem javaName_mem_of_isPrimitive {t : JavaType} (h : t.isPrimitive) :
    t.javaName ∈ primitiveNames := by
  cases t <;> first | decide | cases h

theorem javaName_inj_of_isPrimitive {t u : JavaType} (ht : t.isPrimitive) (hu : u.isPrimitive)
    (h : t.javaName = u.javaName) : t = u := by
  cases t <;> cases u <;> simp_all [isPrimitive, javaName]

/-- Of the characters in signature codes, only brackets occur in names of types. -/
theorem separator_not_mem_javaName {t : JavaType} (ht : t.Plain) :
    ',' ∉ t.javaName.toList ∧ '(' ∉ t.javaName.toList := by
  induction t with
  | array component ih =>
    obtain ⟨hcomma, hparen⟩ := ih ht
    simp [javaName, hcomma, hparen]
  | object name =>
    have hname := ht name rfl
    exact ⟨not_mem_toJavaName hname.no_comma (by decide),
      not_mem_toJavaName hname.no_paren (by decide)⟩
  | _ => decide

theorem bracket_not_mem_javaName {t : JavaType} (ht : t.Plain)
    (h : ∀ component, t ≠ array component) : '[' ∉ t.javaName.toList := by
  cases t with
  | array component => exact absurd rfl (h component)
  | object name => exact not_mem_toJavaName (ht name rfl).no_bracket (by decide)
  | _ => decide

/-- A class is not spelled like a primitive type. -/
theorem javaName_object_ne {name : String} {u : JavaType} (hname : PlainName name)
    (hu : u.isPrimitive) : (object name).javaName ≠ u.javaName := by
  intro h
  have hmem := javaName_mem_of_isPrimitive hu
  have hspelled : ∀ n ∈ primitiveNames, toInternalName n = n := by decide +kernel
  rw [← h, javaName] at hmem
  refine hname.not_primitive ?_
  rwa [← hspelled _ hmem, toInternalName_toJavaName hname.no_dot] at hmem

/-- The source-level name of a type that is no array is its own. -/
theorem javaName_inj_of_not_array {t u : JavaType} (ht : t.Plain) (hu : u.Plain)
    (ht' : t ≠ void) (hu' : u ≠ void) (hta : ∀ component, t ≠ array component)
    (hua : ∀ component, u ≠ array component) (h : t.javaName = u.javaName) : t = u := by
  obtain htp | rfl | ⟨name, rfl⟩ | ⟨component, rfl⟩ := t.isPrimitive_cases
  · obtain hup | rfl | ⟨other, rfl⟩ | ⟨component, rfl⟩ := u.isPrimitive_cases
    · exact javaName_inj_of_isPrimitive htp hup h
    · exact absurd rfl hu'
    · exact absurd h.symm (javaName_object_ne (hu other rfl) htp)
    · exact absurd rfl (hua component)
  · exact absurd rfl ht'
  · obtain hup | rfl | ⟨other, rfl⟩ | ⟨component, rfl⟩ := u.isPrimitive_cases
    · exact absurd h (javaName_object_ne (ht name rfl) hup)
    · exact absurd rfl hu'
    · have hname := toInternalName_toJavaName (ht name rfl).no_dot
      have hother := toInternalName_toJavaName (hu other rfl).no_dot
      rw [← hname, ← hother, show toJavaName name = toJavaName other from h]
    · exact absurd rfl (hua component)
  · exact absurd rfl (hta component)

theorem bracket_mem_javaName (component : JavaType) : '[' ∈ (array component).javaName.toList := by
  simp [javaName]

/-- The source-level name of a type is its own, if the class it names has a plain name. -/
theorem javaName_inj {t u : JavaType} (ht : t.Plain) (hu : u.Plain) (ht' : t.element ≠ void)
    (hu' : u.element ≠ void) (h : t.javaName = u.javaName) : t = u := by
  induction t generalizing u with
  | array component ih =>
    by_cases hua : ∃ other, u = array other
    · obtain ⟨other, rfl⟩ := hua
      have hnames : component.javaName = other.javaName := by
        rw [← String.toList_inj, javaName, javaName, String.toList_append, String.toList_append] at h
        exact String.toList_inj.1 (List.append_cancel_right h)
      rw [ih (u := other) ht hu ht' hu' hnames]
    · refine absurd ?_ (bracket_not_mem_javaName hu fun other heq => hua ⟨other, heq⟩)
      exact h ▸ bracket_mem_javaName component
  | _ =>
    by_cases hua : ∃ other, u = array other
    · obtain ⟨other, rfl⟩ := hua
      exact absurd (h ▸ bracket_mem_javaName other) (bracket_not_mem_javaName ht nofun)
    · exact javaName_inj_of_not_array ht hu ht' (fun heq => by subst heq; exact hu' rfl) nofun
        (fun other heq => hua ⟨other, heq⟩) h

end JavaType

/-! ## Codes -/

/-- The last occurrence of a separator divides a list in one way only. -/
theorem append_cons_inj {α : Type} {sep : α} {xs ys xs' ys' : List α} (hy : sep ∉ ys)
    (hy' : sep ∉ ys') (h : xs ++ sep :: ys = xs' ++ sep :: ys') : xs = xs' ∧ ys = ys' := by
  obtain ⟨between, rfl, htail⟩ | ⟨between, rfl, htail⟩ := List.append_eq_append_iff.1 h
  · cases between with
    | nil => simpa using htail
    | cons b between =>
      rw [List.cons_append, List.cons.injEq] at htail
      refine absurd ?_ hy
      simp [htail.2]
  · cases between with
    | nil => simpa [eq_comm] using htail
    | cons b between =>
      rw [List.cons_append, List.cons.injEq] at htail
      refine absurd ?_ hy'
      simp [htail.2]

theorem intercalate_ne_nil {α : Type} {sep : α} {xs : List (List α)} (hxs : xs ≠ [])
    (h : [] ∉ xs) : [sep].intercalate xs ≠ [] := by
  match xs, hxs with
  | [x], _ => simpa [eq_comm] using h
  | x :: y :: rest, _ => simp [List.intercalate_cons_cons]

theorem not_mem_intercalate {α : Type} {sep c : α} {xs : List (List α)} (hsep : c ≠ sep)
    (h : ∀ x ∈ xs, c ∉ x) : c ∉ [sep].intercalate xs := by
  match xs with
  | [] => simp
  | [x] => simpa using h
  | x :: y :: rest =>
    have ih : c ∉ [sep].intercalate (y :: rest) :=
      not_mem_intercalate hsep fun z hz => h z (List.mem_cons_of_mem _ hz)
    simp [List.intercalate_cons_cons, h x, hsep, ih]

/-- Texts joined by a separator that occurs in none of them, and none of which is empty, can be told
from one another. -/
theorem intercalate_inj {α : Type} [DecidableEq α] {sep : α} {xs ys : List (List α)}
    (hx : ∀ x ∈ xs, sep ∉ x) (hy : ∀ y ∈ ys, sep ∉ y) (hx' : [] ∉ xs) (hy' : [] ∉ ys)
    (h : [sep].intercalate xs = [sep].intercalate ys) : xs = ys := by
  by_cases hxs : xs = []
  · subst hxs
    by_contra hys
    exact intercalate_ne_nil (Ne.symm hys) hy' h.symm
  by_cases hys : ys = []
  · subst hys
    exact absurd h (intercalate_ne_nil hxs hx')
  · rw [← List.splitOn_intercalate sep hx hxs, h, List.splitOn_intercalate sep hy hys]

/-- A type that a descriptor can give to a parameter: no array of `void`, and no class without a name. -/
def JavaType.IsValue (t : JavaType) : Prop :=
  t.element ≠ .void ∧ t.element ≠ .object ""

theorem JavaType.javaName_ne_empty {t : JavaType} (h : t.IsValue) : t.javaName.toList ≠ [] := by
  cases t with
  | array component => exact List.ne_nil_of_mem (bracket_mem_javaName component)
  | object name =>
    rw [javaName, toList_toJavaName, ne_eq, List.map_eq_nil_iff, String.toList_eq_nil_iff]
    rintro rfl
    exact h.2 rfl
  | _ => decide

theorem map_inj_of_mem {α β : Type} {f : α → β} {xs ys : List α}
    (hf : ∀ x ∈ xs, ∀ y ∈ ys, f x = f y → x = y) (h : xs.map f = ys.map f) : xs = ys := by
  induction xs generalizing ys with
  | nil => exact (List.map_eq_nil_iff.1 h.symm).symm
  | cons x xs ih =>
    obtain ⟨y, ys, rfl, hxy, hrest⟩ := List.map_eq_cons_iff.1 h.symm
    rw [hf x (List.mem_cons_self ..) y (List.mem_cons_self ..) hxy.symm,
      ih (fun a ha b hb => hf a (List.mem_cons_of_mem _ ha) b (List.mem_cons_of_mem _ hb)) hrest.symm]

/-- The signature codes of one type determine the method name and the parameter types, as far as these
name classes by plain names. -/
theorem signCode_inj {declaringType name name' : String} {ts us : List JavaType}
    (ht : ∀ t ∈ ts, t.Plain ∧ t.IsValue) (hu : ∀ u ∈ us, u.Plain ∧ u.IsValue)
    (h : signCode declaringType name (ts.map JavaType.javaName)
      = signCode declaringType name' (us.map JavaType.javaName)) : name = name' ∧ ts = us := by
  let spelled (v : JavaType) : List Char := v.javaName.toList
  have separated (vs : List JavaType) (hvs : ∀ v ∈ vs, v.Plain ∧ v.IsValue) :
      (∀ x ∈ vs.map spelled, ',' ∉ x) ∧ [] ∉ vs.map spelled ∧
        '(' ∉ [','].intercalate (vs.map spelled) ++ [')'] := by
    have hmem (v) (hv : v ∈ vs) := JavaType.separator_not_mem_javaName (hvs v hv).1
    refine ⟨List.forall_mem_map.2 fun v hv => (hmem v hv).1, fun hnil => ?_, fun hparen => ?_⟩
    · obtain ⟨v, hv, hv'⟩ := List.mem_map.1 hnil
      exact JavaType.javaName_ne_empty (hvs v hv).2 hv'
    · have hjoined := not_mem_intercalate (show '(' ≠ ',' by decide)
        (List.forall_mem_map.2 fun v hv => (hmem v hv).2)
      exact (List.mem_append.1 hparen).elim hjoined (by decide)
  obtain ⟨hcomma, hempty, hparen⟩ := separated ts ht
  obtain ⟨hcomma', hempty', hparen'⟩ := separated us hu
  rw [signCode, signCode, ← String.toList_inj] at h
  simp only [String.toList_append, String.toList_intercalate, List.append_assoc, List.map_map] at h
  obtain ⟨hname, hjoined⟩ :=
    append_cons_inj hparen hparen' (List.append_cancel_left (List.append_cancel_left h))
  have hspelled := intercalate_inj hcomma hcomma' hempty hempty' (List.append_cancel_right hjoined)
  refine ⟨String.toList_inj.1 hname, map_inj_of_mem (fun t ht₁ u hu₁ heq => ?_) hspelled⟩
  exact JavaType.javaName_inj (ht t ht₁).1 (hu u hu₁).1 (ht t ht₁).2.1 (hu u hu₁).2.1
    (String.toList_inj.1 heq)

/-! ## The methods of a type -/

theorem JavaType.isValue_of_read {s rest : List Char} {t : JavaType} (h : read s = .ok (t, rest)) :
    t.element ≠ .object "" ∧ (t ≠ .void → t.element ≠ .void) := by
  fun_induction read s generalizing t rest with
  | case13 tail _ _ _ hname =>
    cases h
    refine ⟨fun heq => hname ?_, fun _ heq => by cases heq⟩
    change object _ = object "" at heq
    rw [object.injEq, ← String.toList_inj, String.toList_ofList] at heq
    exact heq
  | case16 tail component _ hvoid hread ih =>
    cases h
    exact ⟨(ih hread).1, fun _ => (ih hread).2 hvoid⟩
  | _ => cases h <;> simp [element]

theorem MethodDescriptor.isValue_of_readParameters {s after : List Char} {ts : List JavaType}
    (h : readParameters s = some (ts, after)) : ∀ t ∈ ts, t.IsValue := by
  fun_induction readParameters s generalizing ts after with
  | case1 => cases h; exact nofun
  | case2 | case3 => cases h
  | case4 s _ t rest hread _ hvoid ih =>
    obtain ⟨⟨others, after'⟩, hothers, hts⟩ := Option.map_eq_some_iff.1 h
    cases hts
    have ht := JavaType.isValue_of_read hread
    exact List.forall_mem_cons.2 ⟨⟨ht.2 hvoid, ht.1⟩, ih hothers⟩

/-- What a method descriptor gives to parameters are types of values. -/
theorem MethodDescriptor.isValue_of_ofDescriptor {text : String} {d : MethodDescriptor}
    (h : ofDescriptor text = .ok d) : ∀ t ∈ d.parameters, t.IsValue := by
  unfold ofDescriptor at h
  split at h
  case h_2 => cases h
  case h_1 found hread =>
    cases h
    unfold read? at hread
    split at hread
    case h_2 => cases hread
    case h_1 =>
      split at hread
      case h_1 => cases hread
      case h_2 parameters after hparameters =>
        split at hread
        case h_2 => cases hread
        case h_1 =>
          cases hread
          exact isValue_of_readParameters hparameters

namespace StructuralType

/-- A behavior has the parameters of its descriptor. -/
theorem parameters_of_behaviorOf {pool : Pool} {javaName : String} {m : Member} {b : Behavior}
    (h : behaviorOf pool javaName m = .ok (some b)) :
    b.declaringType = javaName ∧ ∃ d, MethodDescriptor.ofDescriptor b.descriptor = .ok d ∧
      b.parameters = d.parameters.map JavaType.javaName := by
  obtain ⟨name, -, h⟩ := bind_eq_ok.1 h
  split at h
  · cases h
  obtain ⟨descriptor, -, h⟩ := bind_eq_ok.1 h
  obtain ⟨b', hb', h⟩ := bind_eq_ok.1 h
  obtain ⟨exceptions, -, h⟩ := bind_eq_ok.1 h
  obtain ⟨annotations, -, h⟩ := bind_eq_ok.1 h
  cases h
  obtain ⟨d, hd, hb'⟩ := bind_eq_ok.1 hb'
  cases hb'
  exact ⟨rfl, d, hd, rfl⟩

theorem behaviors_of_ofClassFile {c : ClassFile} {boundary : Boundary} {t : StructuralType}
    (ht : ofClassFile c boundary = .ok t) {b : Behavior} (hb : b ∈ t.behaviors) :
    b.declaringType = t.javaName ∧ ∃ d, MethodDescriptor.ofDescriptor b.descriptor = .ok d ∧
      b.parameters = d.parameters.map JavaType.javaName := by
  obtain ⟨owner, -, ht⟩ := bind_eq_ok.1 ht
  obtain ⟨superName, -, ht⟩ := bind_eq_ok.1 ht
  obtain ⟨interfaces, -, ht⟩ := bind_eq_ok.1 ht
  obtain ⟨behaviors, hbehaviors, ht⟩ := bind_eq_ok.1 ht
  obtain ⟨annotations, -, ht⟩ := bind_eq_ok.1 ht
  cases ht
  obtain ⟨found, hfound, rfl⟩ := List.mem_filterMap.1 hb
  obtain ⟨m, -, hm⟩ := (mem_forall₂ (mapM_eq_ok.1 hbehaviors)).2 _ hfound
  exact parameters_of_behaviorOf hm

/-- Two methods of a type have one signature code exactly if they have one name and the same list of
parameter types, as far as these name classes by plain names. -/
theorem signCode_eq_iff {c : ClassFile} {boundary : Boundary} {t : StructuralType}
    (ht : ofClassFile c boundary = .ok t) {b₁ b₂ : Behavior} (hb₁ : b₁ ∈ t.behaviors)
    (hb₂ : b₂ ∈ t.behaviors) {d₁ d₂ : MethodDescriptor}
    (hd₁ : MethodDescriptor.ofDescriptor b₁.descriptor = .ok d₁)
    (hd₂ : MethodDescriptor.ofDescriptor b₂.descriptor = .ok d₂)
    (plain₁ : ∀ p ∈ d₁.parameters, p.Plain) (plain₂ : ∀ p ∈ d₂.parameters, p.Plain) :
    b₁.signCode = b₂.signCode ↔ b₁.name = b₂.name ∧ d₁.parameters = d₂.parameters := by
  obtain ⟨hdeclaring₁, d₁', hd₁', hparameters₁⟩ := behaviors_of_ofClassFile ht hb₁
  obtain ⟨hdeclaring₂, d₂', hd₂', hparameters₂⟩ := behaviors_of_ofClassFile ht hb₂
  obtain rfl : d₁' = d₁ := Except.ok.inj (hd₁'.symm.trans hd₁)
  obtain rfl : d₂' = d₂ := Except.ok.inj (hd₂'.symm.trans hd₂)
  rw [Behavior.signCode, Behavior.signCode, hdeclaring₁, hdeclaring₂, hparameters₁, hparameters₂]
  constructor
  · intro h
    exact signCode_inj
      (fun p hp => ⟨plain₁ p hp, MethodDescriptor.isValue_of_ofDescriptor hd₁ p hp⟩)
      (fun p hp => ⟨plain₂ p hp, MethodDescriptor.isValue_of_ofDescriptor hd₂ p hp⟩) h
  · rintro ⟨hname, hparameters⟩
    rw [hname, hparameters]

/-- A class with abstract methods of the given names and descriptors. -/
def sampleClass (methods : List (String × String)) : ClassFile where
  minorVersion := 0
  majorVersion := 52
  pool := Pool.ofSlots (some (.utf8 "demo/Sample") :: some (.classRef 1) ::
    methods.flatMap fun (name, descriptor) => [some (.utf8 name), some (.utf8 descriptor)])
  access := Access.publicFlag
  thisClass := 2
  superClass := 0
  interfaces := []
  fields := []
  methods := methods.zipIdx.map fun (_, i) =>
    ⟨Access.abstractFlag, UInt16.ofNat (2 * i + 3), UInt16.ofNat (2 * i + 4), []⟩
  attributes := []

/-- Whether two methods given by name and descriptor, in one class, satisfy a condition. -/
def checkPair (m₁ m₂ : String × String)
    (holds : Behavior → MethodDescriptor → Behavior → MethodDescriptor → Bool) : Bool :=
  (ofClassFile (sampleClass [m₁, m₂]) .bootstrap).toOption.any fun t =>
    t.behaviors.any fun b₁ => t.behaviors.any fun b₂ =>
      (MethodDescriptor.ofDescriptor b₁.descriptor).toOption.any fun d₁ =>
        (MethodDescriptor.ofDescriptor b₂.descriptor).toOption.any fun d₂ => holds b₁ d₁ b₂ d₂

theorem checkPair_iff {m₁ m₂ : String × String}
    {holds : Behavior → MethodDescriptor → Behavior → MethodDescriptor → Bool} :
    checkPair m₁ m₂ holds ↔ ∃ t b₁ b₂ d₁ d₂, ofClassFile (sampleClass [m₁, m₂]) .bootstrap = .ok t ∧
      b₁ ∈ t.behaviors ∧ b₂ ∈ t.behaviors ∧ MethodDescriptor.ofDescriptor b₁.descriptor = .ok d₁ ∧
      MethodDescriptor.ofDescriptor b₂.descriptor = .ok d₂ ∧ holds b₁ d₁ b₂ d₂ := by
  simp only [checkPair, any_toOption, List.any_eq_true]
  constructor
  · rintro ⟨t, ht, b₁, hb₁, b₂, hb₂, d₁, hd₁, d₂, hd₂, h⟩
    exact ⟨t, b₁, b₂, d₁, d₂, ht, hb₁, hb₂, hd₁, hd₂, h⟩
  · rintro ⟨t, b₁, b₂, d₁, d₂, ht, hb₁, hb₂, hd₁, hd₂, h⟩
    exact ⟨t, ht, b₁, hb₁, b₂, hb₂, d₁, hd₁, d₂, hd₂, h⟩

theorem signCode_eq_iff_overloads : ∃ t b₁ b₂ d₁ d₂,
    ofClassFile (sampleClass [("f", "([[La/B$C;I)V"), ("f", "([La/B$C;I)V")]) .bootstrap = .ok t ∧
    b₁ ∈ t.behaviors ∧ b₂ ∈ t.behaviors ∧ MethodDescriptor.ofDescriptor b₁.descriptor = .ok d₁ ∧
    MethodDescriptor.ofDescriptor b₂.descriptor = .ok d₂ ∧ (∀ p ∈ d₁.parameters, p.Plain) ∧
    (∀ p ∈ d₂.parameters, p.Plain) ∧ b₁.signCode ≠ b₂.signCode := by
  have h : checkPair ("f", "([[La/B$C;I)V") ("f", "([La/B$C;I)V") fun _ d₁ _ d₂ =>
      (∀ p ∈ d₁.parameters, p.Plain) ∧ (∀ p ∈ d₂.parameters, p.Plain) ∧
        d₁.parameters ≠ d₂.parameters := by
    decide +kernel
  obtain ⟨t, b₁, b₂, d₁, d₂, ht, hb₁, hb₂, hd₁, hd₂, h⟩ := checkPair_iff.1 h
  obtain ⟨plain₁, plain₂, hne⟩ := of_decide_eq_true h
  exact ⟨t, b₁, b₂, d₁, d₂, ht, hb₁, hb₂, hd₁, hd₂, plain₁, plain₂, fun heq =>
    hne ((signCode_eq_iff ht hb₁ hb₂ hd₁ hd₂ plain₁ plain₂).1 heq).2⟩

/-- Two methods, given by name and descriptor, are different overloads of a class with one signature
code. -/
def Collide (m₁ m₂ : String × String) : Prop :=
  ∃ t b₁ b₂ d₁ d₂, ofClassFile (sampleClass [m₁, m₂]) .bootstrap = .ok t ∧
    b₁ ∈ t.behaviors ∧ b₂ ∈ t.behaviors ∧ MethodDescriptor.ofDescriptor b₁.descriptor = .ok d₁ ∧
    MethodDescriptor.ofDescriptor b₂.descriptor = .ok d₂ ∧ b₁.signCode = b₂.signCode ∧
    ¬(b₁.name = b₂.name ∧ d₁.parameters = d₂.parameters)

theorem collide_of_check {m₁ m₂ : String × String} (h : checkPair m₁ m₂ fun b₁ d₁ b₂ d₂ =>
    b₁.signCode = b₂.signCode ∧ ¬(b₁.name = b₂.name ∧ d₁.parameters = d₂.parameters)) :
    Collide m₁ m₂ := by
  obtain ⟨t, b₁, b₂, d₁, d₂, ht, hb₁, hb₂, hd₁, hd₂, h⟩ := checkPair_iff.1 h
  exact ⟨t, b₁, b₂, d₁, d₂, ht, hb₁, hb₂, hd₁, hd₂, of_decide_eq_true h⟩

/-- A class named like a primitive type, a comma in the name of a class, and parentheses in the names of
a method and of a class. -/
theorem signCode_collides :
    Collide ("f", "(I)V") ("f", "(Lint;)V") ∧ Collide ("f", "(La;Lb;)V") ("f", "(La,b;)V") ∧
      Collide ("f(a)", "(Lb;)V") ("f", "(La)(b;)V") :=
  ⟨collide_of_check (by decide +kernel), collide_of_check (by decide +kernel),
    collide_of_check (by decide +kernel)⟩

end StructuralType

end Interpose
