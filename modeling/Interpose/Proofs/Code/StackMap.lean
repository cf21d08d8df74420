import Interpose.Code.Assemble
import Interpose.Code.Decode
import Interpose.Proofs.Code.BranchTargets
import Interpose.Proofs.Pool.Interning
/-!
# What stack maps say

A stack map table holds one frame at each offset that control is sent to, and the frame stands for
the inferred frame of the lowest branch target there (`table_ends`). What else goes with the code of a
body are tables of its lines and local variables (`tables_eq_ok`).
-/

namespace Interpose

/-! ## What the types of a table stand for -/

/-- What a type of a stack map frame stands for: objects name their class in the pool, and objects
that are not constructed yet the offset of their `new`. -/
inductive VerificationType.Denotes (pool : Pool) (offsets : Array Nat) :
    VerificationType → VType → Prop
  | top : Denotes pool offsets .top .top
  | integer : Denotes pool offsets .integer .int
  | float : Denotes pool offsets .float .float
  | long : Denotes pool offsets .long .long
  | double : Denotes pool offsets .double .double
  | null : Denotes pool offsets .null .null
  | uninitializedThis : Denotes pool offsets .uninitializedThis .uninitializedThis
  | uninitialized {site o : Nat} {name : String} : offsets[site]? = some o →
    Denotes pool offsets (.uninitialized (UInt16.ofNat o)) (.uninitialized site name)
  | object {index : UInt16} {name : String} : pool.className index = .ok name →
    Denotes pool offsets (.object index) (.object name)

/-- The frame that a full stack map frame stands for: a wide type takes two slots. -/
def StackMapFrame.Denotes (pool : Pool) (offsets : Array Nat) (sf : StackMapFrame) (f : Frame) :
    Prop :=
  ∃ delta locals stack ls ss, sf = .full delta locals stack ∧
    List.Forall₂ (VerificationType.Denotes pool offsets) locals ls ∧
    List.Forall₂ (VerificationType.Denotes pool offsets) stack ss ∧
    f = ⟨ls.flatMap VType.slots, (ss.flatMap VType.slots).reverse⟩

/-- A frame as a stack map writes it: without the open locals at its end, and with one type for the
two slots of a wide value. -/
def Frame.written (f : Frame) : Frame :=
  { locals := (StackMap.values (StackMap.trimTop f.locals)).flatMap VType.slots
    stack := ((StackMap.values f.stack.reverse).flatMap VType.slots).reverse }

theorem VerificationType.Denotes.within {p q : Pool} (hpq : p.Within q) {offsets : Array Nat}
    {t : VerificationType} {v : VType} (h : t.Denotes p offsets v) : t.Denotes q offsets v := by
  cases h with
  | object h => exact .object (hpq.className h)
  | uninitialized h => exact .uninitialized h
  | _ => constructor

theorem StackMapFrame.Denotes.within {p q : Pool} (hpq : p.Within q) {offsets : Array Nat}
    {sf : StackMapFrame} {f : Frame} (h : sf.Denotes p offsets f) : sf.Denotes q offsets f := by
  obtain ⟨delta, locals, stack, ls, ss, rfl, hl, hs, rfl⟩ := h
  exact ⟨delta, locals, stack, ls, ss, rfl, hl.imp fun _ _ h => h.within hpq,
    hs.imp fun _ _ h => h.within hpq, rfl⟩

/-! ## Writing tables -/

/-- The faults of code that has no room in the pool. -/
inductive CodeError.IsPoolSize : CodeError → Prop
  | format {e : FormatError} : e.IsSize → IsPoolSize (.format e)

theorem ofExcept_eq_ok {α : Type} {x : Except CodeError α} {r : α} {p q : Pool}
    (h : (Assembly.ofExcept x).run.run p = (.ok r, q)) : x = .ok r ∧ q = p := by
  change (x, p) = _ at h
  cases h
  exact ⟨rfl, rfl⟩

theorem adding_eq_ok {α : Type} {p q : Pool} {x : Pool.Interning α} {a : α}
    (h : (Assembly.adding x).run.run p = (.ok a, q)) : x.run.run p = (.ok a, q) :=
  adapt_eq_ok.1 h

theorem adding_ends {α : Type} {p : Pool} {x : Pool.Interning α} {post : α → Pool → Prop}
    (h : Ends p x post FormatError.IsSize) :
    Ends p (Assembly.adding x) post CodeError.IsPoolSize := by
  unfold Ends Assembly.adding at *
  rw [adapt_run]
  generalize x.run.run p = r at h
  obtain ⟨r, q⟩ := r
  cases r with
  | ok a => exact h
  | error e => exact .format h

namespace StackMap

variable {offsets : Array Nat}

theorem verificationType_ends {p : Pool} (hp : p.Sound) {v : VType}
    (hv : Analysis.Sited offsets.size v) :
    Ends p (verificationType offsets v) (fun t q => p.Grows q ∧ t.Denotes q offsets v)
      CodeError.IsPoolSize := by
  cases v with
  | object name =>
    refine (adding_ends (Pool.addClass_ends hp name)).bind fun i q h => .pure ⟨h.1, .object h.2⟩
  | uninitialized site name =>
    have hlt := hv site name rfl
    refine .pure ⟨.refl hp, ?_⟩
    rw [Array.getD_eq_getD_getElem?, Array.getElem?_eq_getElem hlt, Option.getD_some]
    exact .uninitialized (Array.getElem?_eq_getElem hlt)
  | _ => exact .pure ⟨.refl hp, by constructor⟩

theorem verificationTypes_ends {p : Pool} (hp : p.Sound) {vs : List VType}
    (hvs : ∀ v ∈ vs, Analysis.Sited offsets.size v) :
    Ends p (vs.mapM (verificationType offsets))
      (fun ts q => p.Grows q ∧ List.Forall₂ (VerificationType.Denotes q offsets) ts vs)
      CodeError.IsPoolSize := by
  induction vs generalizing p with
  | nil => exact .pure ⟨.refl hp, .nil⟩
  | cons v vs ih =>
    rw [List.mapM_cons]
    refine (verificationType_ends hp (hvs v (List.mem_cons_self ..))).bind fun t q h => ?_
    refine (ih h.1.sound fun v hv => hvs v (List.mem_cons_of_mem _ hv)).bind fun ts r hr => ?_
    exact .pure ⟨h.1.trans hr.1, .cons (h.2.within hr.1.within) hr.2⟩

theorem mem_values {v : VType} {vs : List VType} (h : v ∈ values vs) : v ∈ vs := by
  fun_induction values vs with
  | case1 => exact h
  | case2 => exact h
  | case3 u second rest hw ih =>
    rcases List.mem_cons.1 h with rfl | h
    · exact List.mem_cons_self ..
    · exact List.mem_cons_of_mem _ (List.mem_cons_of_mem _ (ih h))
  | case4 u second rest hw ih =>
    rcases List.mem_cons.1 h with rfl | h
    · exact List.mem_cons_self ..
    · exact List.mem_cons_of_mem _ (ih h)

theorem mem_trimTop {v : VType} {vs : List VType} (h : v ∈ trimTop vs) : v ∈ vs := by
  unfold trimTop at h
  rw [List.mem_reverse] at h
  exact List.mem_reverse.1 ((List.dropWhile_sublist _).subset h)

theorem fullFrame_ends {p : Pool} (hp : p.Sound) (delta : Nat) {f : Frame}
    (hf : Analysis.SitedFrame offsets.size f) :
    Ends p (fullFrame offsets delta f)
      (fun sf q => p.Grows q ∧ sf.delta = UInt16.ofNat delta ∧ sf.Denotes q offsets f.written)
      CodeError.IsPoolSize := by
  have locals : ∀ v ∈ values (trimTop f.locals), Analysis.Sited offsets.size v := fun v hv =>
    hf v (List.mem_append_left _ (mem_trimTop (mem_values hv)))
  have stack : ∀ v ∈ values f.stack.reverse, Analysis.Sited offsets.size v := fun v hv =>
    hf v (List.mem_append_right _ (List.mem_reverse.1 (mem_values hv)))
  refine (verificationTypes_ends hp locals).bind fun ls q h => ?_
  refine (verificationTypes_ends h.1.sound stack).bind fun ss r hr => ?_
  refine .pure ⟨h.1.trans hr.1, rfl, UInt16.ofNat delta, ls, ss, _, _, rfl, ?_, hr.2, rfl⟩
  exact h.2.imp fun _ _ h => h.within hr.1.within

/-- The instructions of a list that have a frame, with their offsets. -/
def framed (a : Analysis) (chosen : List (Nat × Nat)) : List (Nat × Frame) :=
  chosen.filterMap fun x => (a.frame x.2).map (x.1, ·)

/-- The offset behind the one of the frame before. -/
def afterPrevious : Option Nat → Nat
  | none => 0
  | some o => o + 1

theorem frames_skip {a : Analysis} {previous : Option Nat} {o i : Nat} {rest : List (Nat × Nat)}
    (hi : a.frame i = none) :
    frames a offsets previous ((o, i) :: rest) = frames a offsets previous rest := by
  have hi' : (a.frames[i]?).join = none := hi
  simp only [frames, hi']

theorem frames_cons {a : Analysis} {previous : Option Nat} {o i : Nat} {rest : List (Nat × Nat)}
    {f : Frame} (hi : a.frame i = some f) :
    frames a offsets previous ((o, i) :: rest) = (do
      let first ← fullFrame offsets (o - afterPrevious previous) f
      let others ← frames a offsets (some o) rest
      return first :: others) := by
  have hi' : (a.frames[i]?).join = some f := hi
  simp only [frames, hi']
  cases previous <;> rfl

theorem frames_ends {a : Analysis} (ha : ∀ i f, a.frame i = some f → Analysis.SitedFrame offsets.size f)
    {p : Pool} (hp : p.Sound) (previous : Option Nat) {chosen : List (Nat × Nat)}
    (hsorted : chosen.Pairwise (fun x y => x.1 < y.1))
    (hbound : ∀ x ∈ chosen, afterPrevious previous ≤ x.1 ∧ x.1 ≤ maxCodeLength) :
    Ends p (frames a offsets previous chosen)
      (fun sfs q => p.Grows q ∧ List.Forall₂ (fun x y => x.1 = y.1 ∧ x.2.Denotes q offsets y.2.written)
        (framesWithOffsets.go (afterPrevious previous) sfs) (framed a chosen))
      CodeError.IsPoolSize := by
  induction chosen generalizing p previous with
  | nil => exact .pure ⟨.refl hp, .nil⟩
  | cons x chosen ih =>
    obtain ⟨o, i⟩ := x
    obtain ⟨hfirst, hsorted⟩ := List.pairwise_cons.1 hsorted
    obtain ⟨hlow, hhigh⟩ := hbound (o, i) (List.mem_cons_self ..)
    have hrest := fun x hx => hbound x (List.mem_cons_of_mem _ hx)
    cases hi : a.frame i with
    | none =>
      rw [frames_skip hi]
      simpa only [framed, List.filterMap_cons, hi, Option.map_none] using ih hp previous hsorted hrest
    | some f =>
      rw [frames_cons hi]
      refine (fullFrame_ends hp _ (ha i f hi)).bind fun sf q h => ?_
      refine (ih h.1.sound (some o) hsorted fun x hx => ?_).bind fun sfs r hr => ?_
      · exact ⟨Nat.succ_le_of_lt (hfirst x hx), (hrest x hx).2⟩
      · refine .pure ⟨h.1.trans hr.1, ?_⟩
        have hn : (UInt16.ofNat (o - afterPrevious previous)).toNat = o - afterPrevious previous := by
          rw [UInt16.toNat_ofNat']
          refine Nat.mod_eq_of_lt ?_
          simp only [maxCodeLength] at hhigh
          omega
        have ho : afterPrevious previous + sf.delta.toNat = o := by
          rw [h.2.1, hn]
          simp only at hlow
          omega
        simp only [framed, List.filterMap_cons, hi, Option.map_some, framesWithOffsets.go, ho]
        exact .cons ⟨rfl, h.2.2.within hr.1.within⟩ hr.2

/-- The instructions whose frames are in the table, with their offsets in ascending order. -/
def chosen (a : Analysis) (e : Encoded) : List (Nat × Nat) :=
  (instructionsByOffset (a.branchTargets.toList ++ e.widened) e).toList

theorem mem_chosen {a : Analysis} {e : Encoded} {o i : Nat} :
    (o, i) ∈ chosen a e ↔
      (instructionsByOffset (a.branchTargets.toList ++ e.widened) e)[o]? = some i :=
  Std.TreeMap.mem_toList_iff_getElem?_eq_some

theorem chosen_sorted (a : Analysis) (e : Encoded) :
    (chosen a e).Pairwise (fun x y => x.1 < y.1) :=
  Std.TreeMap.ordered_keys_toList.imp fun h => Std.compare_eq_lt.1 h

/-- What stands for an offset lies there and is a branch target or follows a split branch. -/
theorem chosen_spec {a : Analysis} {e : Encoded} {o i : Nat} (h : (o, i) ∈ chosen a e) :
    e.offsets[i]? = some o ∧ (i ∈ a.branchTargets ∨ i ∈ e.widened) := by
  rw [mem_chosen, instructionsByOffset_eq] at h
  refine ⟨by simpa using List.find?_some h, ?_⟩
  rcases List.mem_append.1 (List.mem_of_find?_eq_some h) with hi | hi
  · exact .inl (Std.TreeSet.mem_toList.1 hi)
  · exact .inr hi

/-- The frames of a table and the inferred frames they stand for, offset by offset. -/
def Stands (q : Pool) (a : Analysis) (e : Encoded) (frames : List (Nat × StackMapFrame)) : Prop :=
  List.Forall₂ (fun x y => x.1 = y.1 ∧ x.2.Denotes q e.offsets y.2.written) frames
    (framed a (chosen a e))

theorem Stands.within {p q : Pool} (hpq : p.Within q) {a : Analysis} {e : Encoded}
    {frames : List (Nat × StackMapFrame)} (h : Stands p a e frames) : Stands q a e frames :=
  h.imp fun _ _ h => ⟨h.1, h.2.within hpq⟩

/-- Keys in ascending order on the one side are in ascending order on the other. -/
theorem sorted_of_keys {α β : Type} {xs : List (Nat × α)} {ys : List (Nat × β)}
    (h : List.Forall₂ (fun x y => x.1 = y.1) xs ys)
    (hs : ys.Pairwise (fun x y => x.1 < y.1)) : xs.Pairwise (fun x y => x.1 < y.1) := by
  induction h with
  | nil => exact .nil
  | cons hxy hrest ih =>
    obtain ⟨hy, hs⟩ := List.pairwise_cons.1 hs
    refine List.pairwise_cons.2 ⟨fun z hz => ?_, ih hs⟩
    obtain ⟨w, hw, hzw⟩ := (mem_forall₂ hrest).1 z hz
    rw [hxy, hzw]
    exact hy w hw

theorem framed_sorted (a : Analysis) (e : Encoded) :
    (framed a (chosen a e)).Pairwise (fun x y => x.1 < y.1) := by
  refine List.Pairwise.filterMap _ ?_ (chosen_sorted a e)
  intro x y hxy x' hx' y' hy'
  obtain ⟨f, -, rfl⟩ := Option.map_eq_some_iff.1 hx'
  obtain ⟨g, -, rfl⟩ := Option.map_eq_some_iff.1 hy'
  exact hxy

/-- The frames of a table come in the order of their offsets, one for each. -/
theorem Stands.sorted {q : Pool} {a : Analysis} {e : Encoded} {frames : List (Nat × StackMapFrame)}
    (h : Stands q a e frames) : frames.Pairwise (fun x y => x.1 < y.1) :=
  sorted_of_keys (h.imp fun _ _ h => h.1) (framed_sorted a e)

/-- Every frame of a table stands for one that was inferred at its offset. -/
theorem Stands.of_mem {q : Pool} {a : Analysis} {e : Encoded} {frames : List (Nat × StackMapFrame)}
    (h : Stands q a e frames) {x : Nat × StackMapFrame} (hx : x ∈ frames) :
    ∃ i f, e.offsets[i]? = some x.1 ∧ a.frame i = some f ∧ x.2.Denotes q e.offsets f.written := by
  obtain ⟨y, hy, hxy, hdenotes⟩ := (mem_forall₂ h).1 x hx
  obtain ⟨z, hz, hzy⟩ := List.mem_filterMap.1 hy
  obtain ⟨f, hf, rfl⟩ := Option.map_eq_some_iff.1 hzy
  exact ⟨z.2, f, hxy ▸ (chosen_spec hz).1, hf, hdenotes⟩

theorem table_ends {a : Analysis} {e : Encoded} {insns : List Insn} (he : e.Fits insns)
    (ha : ∀ i f, a.frame i = some f → Analysis.SitedFrame insns.length f) {p : Pool}
    (hp : p.Sound) :
    Ends p (table a e) (fun sfs q => p.Grows q ∧ Stands q a e (framesWithOffsets sfs))
      CodeError.IsPoolSize := by
  refine frames_ends ?_ hp none (chosen_sorted a e) fun x hx => ⟨Nat.zero_le _, ?_⟩
  · rw [he.size]
    exact ha
  · exact he.bound x.2 x.1 (chosen_spec hx).1

end StackMap

namespace Assemble

/-! ## All tables -/

/-- A list as a table of its kind; there is no empty table. -/
def tableOf {α : Type} (make : List α → Attribute) (entries : List α) : List Attribute :=
  if entries.isEmpty then [] else [make entries]

theorem eq_of_mem_tableOf {α : Type} {make : List α → Attribute} {entries : List α} {x : Attribute}
    (h : x ∈ tableOf make entries) : x = make entries := by
  unfold tableOf at h
  split at h
  · cases h
  · exact List.mem_singleton.1 h

theorem length_tableOf_le {α : Type} (make : List α → Attribute) (entries : List α) :
    (tableOf make entries).length ≤ 1 := by
  unfold tableOf
  split <;> simp

/-- What is collected from a table is what is collected from its list. -/
theorem flatMap_tableOf {α β : Type} {make : List α → Attribute} {f : Attribute → List β}
    (h : f (make []) = []) (entries : List α) : (tableOf make entries).flatMap f = f (make entries) := by
  cases entries with
  | nil => exact h.symm
  | cons x xs => simp [tableOf]

/-- The tables that go with a body and the frames of its stack map. -/
def tablesOf (b : Body) (e : Encoded) (frames : List StackMapFrame) : List Attribute :=
  tableOf .lineNumberTable (e.lines.map fun x => ⟨UInt16.ofNat x.1, x.2⟩) ++
    tableOf .localVariableTable (b.locals.filterMap (localEntry e)) ++
    tableOf .localVariableTypeTable (b.localTypes.filterMap (localEntry e)) ++
    tableOf .stackMapTable frames

theorem mem_tablesOf {b : Body} {e : Encoded} {frames : List StackMapFrame} {x : Attribute}
    (h : x ∈ tablesOf b e frames) :
    x = .lineNumberTable (e.lines.map fun x => ⟨UInt16.ofNat x.1, x.2⟩) ∨
      x = .localVariableTable (b.locals.filterMap (localEntry e)) ∨
      x = .localVariableTypeTable (b.localTypes.filterMap (localEntry e)) ∨
      x = .stackMapTable frames := by
  simp only [tablesOf, List.mem_append, or_assoc] at h
  exact h.imp eq_of_mem_tableOf (.imp eq_of_mem_tableOf (.imp eq_of_mem_tableOf eq_of_mem_tableOf))

/-- What is collected from all tables. -/
theorem flatMap_tablesOf {α : Type} (f : Attribute → List α) (h1 : f (.lineNumberTable []) = [])
    (h2 : f (.localVariableTable []) = []) (h3 : f (.localVariableTypeTable []) = [])
    (h4 : f (.stackMapTable []) = []) (b : Body) (e : Encoded) (frames : List StackMapFrame) :
    (tablesOf b e frames).flatMap f =
      f (.lineNumberTable (e.lines.map fun x => ⟨UInt16.ofNat x.1, x.2⟩)) ++
        f (.localVariableTable (b.locals.filterMap (localEntry e))) ++
        f (.localVariableTypeTable (b.localTypes.filterMap (localEntry e))) ++
        f (.stackMapTable frames) := by
  simp only [tablesOf, List.flatMap_append]
  rw [flatMap_tableOf h1, flatMap_tableOf h2, flatMap_tableOf h3, flatMap_tableOf h4]

/-- The pool holds the names of attributes. -/
def Named (q : Pool) (attributes : List Attribute) : Prop :=
  ∀ x ∈ attributes, ∃ i, q.getUtf8 i = .ok x.name

theorem Named.append {p q : Pool} (hpq : p.Within q) {xs ys : List Attribute} (hxs : Named p xs)
    (hys : Named q ys) : Named q (xs ++ ys) := by
  refine List.forall_mem_append.2 ⟨fun x hx => ?_, hys⟩
  obtain ⟨i, hi⟩ := hxs x hx
  exact ⟨i, hpq.getUtf8 hi⟩

theorem tableAttribute_ends {α : Type} {p : Pool} (hp : p.Sound) (make : List α → Attribute)
    (entries : List α) :
    Ends p (tableAttribute make entries)
      (fun attributes q => p.Grows q ∧ attributes = tableOf make entries ∧ Named q attributes)
      CodeError.IsPoolSize := by
  unfold tableAttribute tableOf
  split
  · exact .pure ⟨.refl hp, rfl, nofun⟩
  · refine (adding_ends (Pool.addUtf8_ends hp _)).bind fun i q h => .pure ⟨h.1, rfl, ?_⟩
    exact List.forall_mem_singleton.2 ⟨i, h.2⟩

/-- The frames of a stack map, as they are written into a pool that grows on. Older classes have none. -/
inductive Framed (p q : Pool) (a : Analysis) (e : Encoded) (major : UInt16) :
    List StackMapFrame → Prop
  | mapped {r r' : Pool} {frames : List StackMapFrame} : stackMapVersion ≤ major → p.Grows r →
    (StackMap.table a e).run.run r = (.ok frames, r') → r'.Grows q → Framed p q a e major frames
  | none : ¬ stackMapVersion ≤ major → Framed p q a e major []

/-- There are tables if the pool has room. -/
theorem tables_ends {b : Body} {a : Analysis} {e : Encoded} (he : e.Fits b.insns)
    (ha : ∀ i f, a.frame i = some f → Analysis.SitedFrame b.insns.length f) (major : UInt16)
    {p : Pool} (hp : p.Sound) : Ends p (tables b a e major) (fun _ _ => True) CodeError.IsPoolSize := by
  unfold tables
  refine (tableAttribute_ends hp _ _).bind fun _ _ h1 => ?_
  refine (tableAttribute_ends h1.1.sound _ _).bind fun _ _ h2 => ?_
  refine (tableAttribute_ends h2.1.sound _ _).bind fun _ _ h3 => ?_
  split
  · refine (StackMap.table_ends he ha h3.1.sound).bind fun _ _ h4 => ?_
    refine (tableAttribute_ends h4.1.sound _ _).bind fun _ _ _ => ?_
    exact .pure trivial
  · exact .pure trivial

/-- The attributes of assembled code are its tables, and the pool holds their names. -/
theorem tables_eq_ok {b : Body} {a : Analysis} {e : Encoded} (he : e.Fits b.insns)
    (ha : ∀ i f, a.frame i = some f → Analysis.SitedFrame b.insns.length f) {major : UInt16}
    {p q : Pool} (hp : p.Sound) {attributes : List Attribute}
    (h : (tables b a e major).run.run p = (.ok attributes, q)) :
    p.Grows q ∧ Named q attributes ∧
      ∃ frames, attributes = tablesOf b e frames ∧ Framed p q a e major frames := by
  unfold tables at h
  rw [run_bind_eq_ok] at h
  obtain ⟨lines, p1, hlines, h⟩ := h
  obtain ⟨h1, rfl, n1⟩ := (tableAttribute_ends hp _ _).of_ok hlines
  rw [run_bind_eq_ok] at h
  obtain ⟨locals, p2, hlocals, h⟩ := h
  obtain ⟨h2, rfl, n2⟩ := (tableAttribute_ends h1.sound _ _).of_ok hlocals
  rw [run_bind_eq_ok] at h
  obtain ⟨types, p3, htypes, h⟩ := h
  obtain ⟨h3, rfl, n3⟩ := (tableAttribute_ends h2.sound _ _).of_ok htypes
  have hgrows := h1.trans (h2.trans h3)
  have named := (n1.append h2.within n2).append h3.within n3
  by_cases hmajor : stackMapVersion ≤ major
  · simp only [hmajor, if_true] at h
    rw [run_bind_eq_ok] at h
    obtain ⟨frames, p4, hframes, h⟩ := h
    rw [run_bind_eq_ok] at h
    obtain ⟨maps, p5, hmaps, h⟩ := h
    obtain ⟨h4, -⟩ := (StackMap.table_ends he ha hgrows.sound).of_ok hframes
    obtain ⟨h5, rfl, n5⟩ := (tableAttribute_ends h4.sound _ _).of_ok hmaps
    cases h
    exact ⟨hgrows.trans (h4.trans h5), named.append (h4.trans h5).within n5, frames, rfl,
      .mapped hmajor hgrows hframes h5⟩
  · simp only [hmajor, if_false] at h
    cases h
    rw [List.append_nil]
    exact ⟨hgrows, named, [], (List.append_nil _).symm, .none hmajor⟩

end Assemble

/-- Assembling, step by step. -/
theorem assemble_steps {body : Body} {context : MethodContext} {h : Hierarchy} {major : UInt16}
    {pool q : Pool} {c : CodeAttribute}
    (hc : (assemble body context h major).run.run pool = (.ok c, q)) :
    ∃ b a e, Assemble.live body context pool h = .ok (b, a) ∧ encode b pool = .ok e ∧
      (Assemble.tables b a e major).run.run pool = (.ok c.attributes, q) ∧ c.code = e.code ∧
      c.exceptions = e.exceptions := by
  unfold assemble at hc
  rw [run_bind_eq_ok] at hc
  obtain ⟨_, _, hget, hc⟩ := hc
  cases hget
  rw [run_bind_eq_ok] at hc
  obtain ⟨⟨b, a⟩, p1, hlive, hc⟩ := hc
  obtain ⟨hlive, rfl⟩ := ofExcept_eq_ok hlive
  rw [run_bind_eq_ok] at hc
  obtain ⟨e, p2, he, hc⟩ := hc
  obtain ⟨he, rfl⟩ := ofExcept_eq_ok he
  rw [run_bind_eq_ok] at hc
  obtain ⟨attributes, p3, hattr, hc⟩ := hc
  cases hc
  exact ⟨b, a, e, hlive, he, hattr, rfl, rfl⟩

/-- The frames of code that control reaches name instructions of it. -/
theorem Assemble.live_sited {body b : Body} {context : MethodContext} {pool : Pool} {h : Hierarchy}
    {a : Analysis} (hlive : live body context pool h = .ok (b, a)) {i : Nat} {f : Frame}
    (hf : a.frame i = some f) : Analysis.SitedFrame b.insns.length f := by
  obtain ⟨ha, -⟩ := Analysis.live_reached hlive
  obtain ⟨m, -, hm, -⟩ := Analysis.analyze_eq_ok ha
  exact Analysis.analyze_sited hm ha hf

/-- What assembled code consists of: the bytes and protected ranges of the code that control reaches,
and its tables, whose names are in the pool. -/
structure Assembles (body : Body) (context : MethodContext) (h : Hierarchy) (major : UInt16)
    (pool q : Pool) (c : CodeAttribute) (b : Body) (a : Analysis) (e : Encoded)
    (frames : List StackMapFrame) : Prop where
  live : Assemble.live body context pool h = .ok (b, a)
  encoded : encode b pool = .ok e
  code : c.code = e.code
  exceptions : c.exceptions = e.exceptions
  attributes : c.attributes = Assemble.tablesOf b e frames
  framed : Assemble.Framed pool q a e major frames
  grows : pool.Grows q
  named : Assemble.Named q c.attributes

section Assembles

variable {body : Body} {context : MethodContext} {h : Hierarchy} {major : UInt16} {pool q : Pool}
  {c : CodeAttribute} {b : Body} {a : Analysis} {e : Encoded} {frames : List StackMapFrame}

theorem assembles_of_assemble (hp : pool.Sound)
    (hc : (assemble body context h major).run.run pool = (.ok c, q)) :
    ∃ b a e frames, Assembles body context h major pool q c b a e frames := by
  obtain ⟨b, a, e, hlive, he, hattr, hcode, hexceptions⟩ := assemble_steps hc
  obtain ⟨hgrows, hnamed, frames, hattr, hframed⟩ :=
    Assemble.tables_eq_ok (encode_fits he) (fun _ _ => Assemble.live_sited hlive) hp hattr
  exact ⟨b, a, e, frames, hlive, he, hcode, hexceptions, hattr, hframed, hgrows, hnamed⟩

theorem Assembles.declaredFrames (hc : Assembles body context h major pool q c b a e frames) :
    c.declaredFrames = framesWithOffsets frames := by
  rw [CodeAttribute.declaredFrames, hc.attributes]
  exact Assemble.flatMap_tablesOf _ rfl rfl rfl rfl b e frames

theorem Assembles.lineEntries (hc : Assembles body context h major pool q c b a e frames) :
    c.lineEntries = e.lines.map fun x => ⟨UInt16.ofNat x.1, x.2⟩ := by
  rw [CodeAttribute.lineEntries, hc.attributes, Assemble.flatMap_tablesOf _ rfl rfl rfl rfl b e frames]
  simp only [List.append_nil]

/-- The frames of the table stand for the inferred frames. -/
theorem Assembles.stands (hc : Assembles body context h major pool q c b a e frames)
    (hmajor : stackMapVersion ≤ major) : StackMap.Stands q a e (framesWithOffsets frames) := by
  cases hc.framed with
  | mapped _ hr hrun hq =>
    exact ((StackMap.table_ends (encode_fits hc.encoded) (fun _ _ => Assemble.live_sited hc.live)
      hr.sound).of_ok hrun).2.within hq.within
  | none hold => exact absurd hmajor hold

/-- What an assembled body consists of: the code that control reaches with its analysis, its bytes,
and a table that stands for the inferred frames. -/
theorem assemble_eq_ok (hp : pool.Sound)
    (hc : (assemble body context h major).run.run pool = (.ok c, q)) :
    ∃ b a e, Assemble.live body context pool h = .ok (b, a) ∧ encode b pool = .ok e ∧
      c.code = e.code ∧ c.exceptions = e.exceptions ∧ pool.Grows q ∧
      (stackMapVersion ≤ major → StackMap.Stands q a e c.declaredFrames) := by
  obtain ⟨b, a, e, frames, hc⟩ := assembles_of_assemble hp hc
  exact ⟨b, a, e, hc.live, hc.encoded, hc.code, hc.exceptions, hc.grows,
    fun hmajor => hc.declaredFrames ▸ hc.stands hmajor⟩

end Assembles

end Interpose
