import Mathlib.Data.List.Forall2
import Interpose.Code.Frame
/-!
# The order of types

Merging a type into another one that stays as it is says that the second one accepts the first. For
a hierarchy of least common superclasses (`Hierarchy.Lawful`) this is an order in which
`mergeSlot` gives the least type that accepts both of its arguments, and so for whole frames.

* `Accepts.trans`, `mergeSlot_least`: the order of the types of single slots.
* `Frame.Accepts.trans`, `Frame.merge_upper`, `Frame.merge_least`: the order of frames.
-/

namespace Interpose

namespace Hierarchy

/-- The answers are class names and make a semilattice with the root class on top. -/
structure Semilattice (h : Hierarchy) : Prop where
  isClass : ∀ a b, isArrayName a = false → isArrayName b = false →
    isArrayName (h.common a b) = false
  idem : ∀ a, isArrayName a = false → h.common a a = a
  comm : ∀ a b, isArrayName a = false → isArrayName b = false → h.common a b = h.common b a
  assoc : ∀ a b c, isArrayName a = false → isArrayName b = false → isArrayName c = false →
    h.common (h.common a b) c = h.common a (h.common b c)
  root : ∀ a, isArrayName a = false → h.common a objectClass = objectClass

/-- The common supertype of two classes or arrays by name. -/
def join (h : Hierarchy) (x y : String) : String :=
  if x = y then x
  else if isArrayName x || isArrayName y then objectClass
  else h.common x y

/-- Common supertypes of classes make a semilattice with the root class on top. What is answered for
two equal classes does not matter. -/
structure Lawful (h : Hierarchy) : Prop where
  isClass : ∀ a b, isArrayName a = false → isArrayName b = false →
    isArrayName (h.join a b) = false
  comm : ∀ a b, isArrayName a = false → isArrayName b = false → h.join a b = h.join b a
  assoc : ∀ a b c, isArrayName a = false → isArrayName b = false → isArrayName c = false →
    h.join (h.join a b) c = h.join a (h.join b c)
  root : ∀ a, isArrayName a = false → h.join a objectClass = objectClass

theorem isArrayName_objectClass : isArrayName objectClass = false := by decide

theorem join_self (h : Hierarchy) (x : String) : h.join x x = x := by
  simp [join]

theorem Semilattice.lawful {h : Hierarchy} (hs : h.Semilattice) : h.Lawful := by
  have common : ∀ a b, isArrayName a = false → isArrayName b = false →
      h.join a b = h.common a b := by
    intro a b ha hb
    unfold join
    split
    · rename_i e
      rw [← e, hs.idem a ha]
    · simp [ha, hb]
  refine ⟨fun a b ha hb => ?_, fun a b ha hb => ?_, fun a b c ha hb hc => ?_, fun a ha => ?_⟩
  · rw [common a b ha hb]
    exact hs.isClass a b ha hb
  · rw [common a b ha hb, common b a hb ha, hs.comm a b ha hb]
  · rw [common a b ha hb, common b c hb hc, common _ c (hs.isClass a b ha hb) hc,
      common a _ ha (hs.isClass b c hb hc), hs.assoc a b c ha hb hc]
  · rw [common a _ ha isArrayName_objectClass, hs.root a ha]

def flat : Hierarchy := ⟨fun a b => if a = b then a else objectClass⟩

theorem flat_semilattice : flat.Semilattice := by
  have hc := isArrayName_objectClass
  refine ⟨fun a b ha hb => ?_, fun a ha => ?_, fun a b ha hb => ?_, fun a b c ha hb hc => ?_,
    fun a ha => ?_⟩
  all_goals simp only [flat]
  · grind
  · simp
  · grind
  · grind
  · grind

/-- Away from equal arrays, the common supertype is a class. -/
theorem join_cases (h : Hierarchy) (hl : h.Lawful) (x y : String) :
    (x = y ∧ isArrayName x = true ∧ h.join x y = x) ∨
    (x ≠ y ∧ (isArrayName x = true ∨ isArrayName y = true) ∧ h.join x y = objectClass) ∨
    (isArrayName x = false ∧ isArrayName y = false ∧ isArrayName (h.join x y) = false) := by
  by_cases hxy : x = y
  · subst hxy
    cases hx : isArrayName x with
    | true => exact .inl ⟨rfl, rfl, h.join_self x⟩
    | false => exact .inr (.inr ⟨rfl, rfl, by rw [join_self, hx]⟩)
  · cases hx : isArrayName x with
    | true => exact .inr (.inl ⟨hxy, .inl rfl, by simp [join, hxy, hx]⟩)
    | false =>
      cases hy : isArrayName y with
      | true => exact .inr (.inl ⟨hxy, .inr rfl, by simp [join, hxy, hy]⟩)
      | false => exact .inr (.inr ⟨rfl, rfl, hl.isClass x y hx hy⟩)

theorem join_comm (h : Hierarchy) (hl : h.Lawful) (x y : String) : h.join x y = h.join y x := by
  by_cases hxy : x = y
  · rw [hxy]
  · have hyx : y ≠ x := fun e => hxy e.symm
    cases hx : isArrayName x with
    | true => simp [join, hxy, hyx, hx]
    | false =>
      cases hy : isArrayName y with
      | true => simp [join, hxy, hyx, hy]
      | false => exact hl.comm x y hx hy

theorem join_objectClass (h : Hierarchy) (hl : h.Lawful) (x : String) :
    h.join x objectClass = objectClass := by
  rcases h.join_cases hl x objectClass with ⟨e, -, hj⟩ | ⟨-, -, hj⟩ | ⟨hx, -, -⟩
  · rw [hj, e]
  · exact hj
  · exact hl.root x hx

theorem join_assoc (h : Hierarchy) (hl : h.Lawful) (x y z : String) :
    h.join (h.join x y) z = h.join x (h.join y z) := by
  have absorb : ∀ w, h.join objectClass w = objectClass := fun w => by
    rw [h.join_comm hl, h.join_objectClass hl]
  -- an array meets anything else in the root class
  have array : ∀ w v, isArrayName v = true → isArrayName w = false → h.join w v = objectClass := by
    intro w v hv hw
    rcases h.join_cases hl w v with ⟨-, hw', -⟩ | ⟨-, -, hj⟩ | ⟨-, hv', -⟩
    · rw [hw] at hw'
      cases hw'
    · exact hj
    · rw [hv] at hv'
      cases hv'
  rcases h.join_cases hl x y with ⟨rfl, hx, hj⟩ | ⟨hne, hxy, hj⟩ | ⟨hx, hy, hxy⟩
  · rw [hj]
    rcases h.join_cases hl x z with ⟨rfl, -, hz⟩ | ⟨-, -, hz⟩ | ⟨hx', -, -⟩
    · rw [hz, hz]
    · rw [hz, h.join_objectClass hl]
    · rw [hx] at hx'
      cases hx'
  · rw [hj, absorb]
    rcases h.join_cases hl y z with ⟨rfl, -, hz⟩ | ⟨-, -, hz⟩ | ⟨hy, hz, hyz⟩
    · rw [hz, hj]
    · rw [hz, h.join_objectClass hl]
    · have hx : isArrayName x = true := by
        rcases hxy with hx | hy'
        · exact hx
        · rw [hy] at hy'
          cases hy'
      rw [h.join_comm hl, array _ x hx hyz]
  · rcases h.join_cases hl y z with ⟨-, hy', -⟩ | ⟨-, hyz, hz⟩ | ⟨-, hz, -⟩
    · rw [hy] at hy'
      cases hy'
    · have hz' : isArrayName z = true := by
        rcases hyz with hy' | hz'
        · rw [hy] at hy'
          cases hy'
        · exact hz'
      rw [hz, h.join_objectClass hl, array _ z hz' hxy]
    · exact hl.assoc x y z hx hy hz

end Hierarchy

/-! ## Types of single slots -/

theorem mergeSlot_object (h : Hierarchy) (x y : String) :
    mergeSlot h (.object x) (.object y) = some (.object (h.join x y)) := by
  unfold mergeSlot Hierarchy.join
  by_cases hxy : x = y
  · simp [hxy]
  · simp only [VType.object.injEq, hxy, if_false]
    split <;> rfl

theorem mergeSlot_self (h : Hierarchy) (v : VType) : mergeSlot h v v = some v := by
  simp [mergeSlot]

/-- What a merge of two types can be. -/
theorem mergeSlot_cases (h : Hierarchy) {a b c : VType} (hm : mergeSlot h a b = some c) :
    (a = b ∧ c = a) ∨ (a = .null ∧ b = c ∧ ∃ x, c = .object x) ∨
    (b = .null ∧ a = c ∧ ∃ x, c = .object x) ∨
    (∃ x y, a = .object x ∧ b = .object y ∧ c = .object (h.join x y)) := by
  by_cases hab : a = b
  · subst hab
    rw [mergeSlot_self] at hm
    exact .inl ⟨rfl, (Option.some.inj hm).symm⟩
  · have hm' := hm
    unfold mergeSlot at hm
    rw [if_neg hab] at hm
    split at hm
    · cases hm
      exact .inr (.inl ⟨rfl, rfl, _, rfl⟩)
    · cases hm
      exact .inr (.inr (.inl ⟨rfl, rfl, _, rfl⟩))
    · rename_i x y
      rw [mergeSlot_object, Option.some.injEq] at hm'
      exact .inr (.inr (.inr ⟨x, y, rfl, rfl, hm'.symm⟩))
    · cases hm

/-- Merging the second type into the first leaves the first as it is. -/
def VType.Accepts (h : Hierarchy) (w v : VType) : Prop :=
  mergeSlot h w v = some w

namespace VType

theorem Accepts.refl (h : Hierarchy) (v : VType) : Accepts h v v := mergeSlot_self h v

/-- A type accepts itself, an object type also the null type and the types below it. -/
theorem accepts_cases {h : Hierarchy} {w v : VType} (ha : Accepts h w v) :
    w = v ∨ ∃ x, w = .object x ∧ (v = .null ∨ ∃ y, v = .object y ∧ h.join x y = x) := by
  rcases mergeSlot_cases h ha with ⟨e, -⟩ | ⟨rfl, -, x, hx⟩ | ⟨rfl, -, x, rfl⟩ | ⟨x, y, rfl, rfl, e⟩
  · exact .inl e
  · cases hx
  · exact .inr ⟨x, rfl, .inl rfl⟩
  · refine .inr ⟨x, rfl, .inr ⟨y, rfl, ?_⟩⟩
    rw [VType.object.injEq] at e
    exact e.symm

theorem accepts_object {h : Hierarchy} {x y : String} :
    Accepts h (.object x) (.object y) ↔ h.join x y = x := by
  rw [Accepts, mergeSlot_object, Option.some.injEq, VType.object.injEq]

theorem accepts_null (h : Hierarchy) (x : String) : Accepts h (.object x) .null := by
  simp [Accepts, mergeSlot]

theorem Accepts.trans {h : Hierarchy} (hl : h.Lawful) {w v u : VType} (hwv : Accepts h w v)
    (hvu : Accepts h v u) : Accepts h w u := by
  rcases accepts_cases hwv with rfl | ⟨x, rfl, rfl | ⟨y, rfl, hy⟩⟩
  · exact hvu
  · rcases accepts_cases hvu with rfl | ⟨_, h0, -⟩
    · exact hwv
    · cases h0
  · rcases accepts_cases hvu with rfl | ⟨y', hy', rfl | ⟨z, rfl, hz⟩⟩
    · exact hwv
    · exact accepts_null h x
    · cases hy'
      rw [accepts_object, ← hy, h.join_assoc hl, hz]

end VType

theorem mergeSlot_upper {h : Hierarchy} (hl : h.Lawful) {a b c : VType}
    (hm : mergeSlot h a b = some c) : VType.Accepts h c a ∧ VType.Accepts h c b := by
  rcases mergeSlot_cases h hm with ⟨rfl, rfl⟩ | ⟨rfl, rfl, x, rfl⟩ | ⟨rfl, rfl, x, rfl⟩ |
    ⟨x, y, rfl, rfl, rfl⟩
  · exact ⟨.refl h _, .refl h _⟩
  · exact ⟨VType.accepts_null h x, .refl h _⟩
  · exact ⟨.refl h _, VType.accepts_null h x⟩
  · rw [VType.accepts_object, VType.accepts_object]
    constructor
    · rw [h.join_comm hl, ← h.join_assoc hl, h.join_self]
    · rw [h.join_assoc hl, h.join_self]

/-- A type that accepts two others accepts their merge, which there is. -/
theorem mergeSlot_least {h : Hierarchy} (hl : h.Lawful) {w a b : VType}
    (ha : VType.Accepts h w a) (hb : VType.Accepts h w b) :
    ∃ c, mergeSlot h a b = some c ∧ VType.Accepts h w c := by
  rcases VType.accepts_cases ha with rfl | ⟨x, rfl, ha'⟩
  · exact ⟨w, hb, .refl h w⟩
  · rcases VType.accepts_cases hb with rfl | ⟨x', hx', hb'⟩
    · rcases ha' with rfl | ⟨y, rfl, hy⟩
      · exact ⟨.object x, by simp [mergeSlot], .refl h _⟩
      · refine ⟨_, mergeSlot_object h y x, ?_⟩
        rw [VType.accepts_object, h.join_comm hl y x, hy, h.join_self]
    · cases hx'
      rcases ha' with rfl | ⟨y, rfl, hy⟩
      · rcases hb' with rfl | ⟨z, rfl, hz⟩
        · exact ⟨.null, mergeSlot_self h _, VType.accepts_null h x⟩
        · exact ⟨.object z, by simp [mergeSlot], hb⟩
      · rcases hb' with rfl | ⟨z, rfl, hz⟩
        · exact ⟨.object y, by simp [mergeSlot], ha⟩
        · refine ⟨_, mergeSlot_object h y z, ?_⟩
          rw [VType.accepts_object, ← h.join_assoc hl, hy, hz]

/-! ## Frames -/

/-- The locals of one frame are below those of another, slot by slot: what the upper one leaves out
or leaves open may be anything. -/
def LocalsUnder (R : VType → VType → Prop) (vs ws : List VType) : Prop :=
  ∀ (k : Nat) (w : VType), ws[k]? = some w → ∃ v, vs[k]? = some v ∧ (w = .top ∨ R v w)

/-- A frame is below another: the stacks are of one height and related slot by slot, and so are the
locals. -/
structure Frame.Under (R : VType → VType → Prop) (g f : Frame) : Prop where
  stack : List.Forall₂ R g.stack f.stack
  locals : LocalsUnder R g.locals f.locals

/-- Merging the second frame into the first leaves the first as it is. -/
def Frame.Accepts (h : Hierarchy) (f g : Frame) : Prop :=
  Frame.Under (fun v w => VType.Accepts h w v) g f

theorem LocalsUnder.refl {R : VType → VType → Prop} (hr : ∀ v, R v v) (vs : List VType) :
    LocalsUnder R vs vs :=
  fun _ w hw => ⟨w, hw, .inr (hr w)⟩

namespace Frame

theorem Accepts.refl (h : Hierarchy) (f : Frame) : f.Accepts h f :=
  ⟨List.forall₂_same.2 fun v _ => .refl h v, .refl (.refl h) f.locals⟩

theorem Accepts.trans {h : Hierarchy} (hl : h.Lawful) {f g k : Frame} (hfg : f.Accepts h g)
    (hgk : g.Accepts h k) : f.Accepts h k := by
  refine ⟨?_, ?_⟩
  · have compose := hgk.stack
    have upper := hfg.stack
    generalize f.stack = fs, g.stack = gs, k.stack = ks at upper compose
    induction compose generalizing fs with
    | nil =>
      cases upper
      exact .nil
    | cons hvu _ ih =>
      cases upper with
      | cons hwv rest => exact .cons (hwv.trans hl hvu) (ih _ rest)
  · intro i w hw
    obtain ⟨v, hv, hwv⟩ := hfg.locals i w hw
    obtain ⟨u, hu, hvu⟩ := hgk.locals i v hv
    refine ⟨u, hu, ?_⟩
    rcases hwv with rfl | hwv
    · exact .inl rfl
    · rcases hvu with rfl | hvu
      · -- only the open type accepts an open type
        rcases VType.accepts_cases hwv with rfl | ⟨x, rfl, h0 | ⟨y, h0, -⟩⟩
        · exact .inl rfl
        · cases h0
        · cases h0
      · exact .inr (hwv.trans hl hvu)

theorem mergeStack_eq_some {h : Hierarchy} {as bs cs : List VType}
    (hm : mergeStack h as bs = some cs) :
    as.length = bs.length ∧ cs.length = as.length ∧
      ∀ (i : Nat) (a b : VType), as[i]? = some a → bs[i]? = some b →
        ∃ c, cs[i]? = some c ∧ mergeSlot h a b = some c := by
  induction as generalizing bs cs with
  | nil =>
    cases bs with
    | nil =>
      cases hm
      exact ⟨rfl, rfl, fun i a b ha => by simp at ha⟩
    | cons b bs => cases hm
  | cons a as ih =>
    cases bs with
    | nil => cases hm
    | cons b bs =>
      simp only [mergeStack, Option.bind_eq_bind, Option.bind_eq_some_iff, Option.pure_def,
        Option.some.injEq] at hm
      obtain ⟨v, hv, vs, hvs, rfl⟩ := hm
      obtain ⟨h1, h2, h3⟩ := ih hvs
      refine ⟨by simp [h1], by simp [h2], ?_⟩
      intro i x y hx hy
      cases i with
      | zero =>
        simp only [List.getElem?_cons_zero, Option.some.injEq] at hx hy ⊢
        subst hx
        subst hy
        exact ⟨v, rfl, hv⟩
      | succ i => exact h3 i x y hx hy

theorem mergeStack_upper {h : Hierarchy} (hl : h.Lawful) {as bs cs : List VType}
    (hm : mergeStack h as bs = some cs) :
    List.Forall₂ (fun v w => VType.Accepts h w v) as cs ∧
      List.Forall₂ (fun v w => VType.Accepts h w v) bs cs := by
  obtain ⟨h1, h2, h3⟩ := mergeStack_eq_some hm
  rw [List.forall₂_iff_get, List.forall₂_iff_get]
  refine ⟨⟨h2.symm, fun i ha hc => ?_⟩, ⟨by omega, fun i hb hc => ?_⟩⟩
  all_goals
    obtain ⟨c, hc', hm⟩ := h3 i as[i] bs[i] (List.getElem?_eq_getElem _) (List.getElem?_eq_getElem _)
    rw [List.getElem?_eq_getElem hc, Option.some.injEq] at hc'
    obtain ⟨ha, hb⟩ := mergeSlot_upper hl hm
    simp only [List.get_eq_getElem, hc']
    assumption

theorem mergeStack_least {h : Hierarchy} (hl : h.Lawful) {ws as bs : List VType}
    (ha : List.Forall₂ (fun v w => VType.Accepts h w v) as ws)
    (hb : List.Forall₂ (fun v w => VType.Accepts h w v) bs ws) :
    ∃ cs, mergeStack h as bs = some cs ∧ List.Forall₂ (fun v w => VType.Accepts h w v) cs ws := by
  induction ha generalizing bs with
  | nil =>
    cases hb
    exact ⟨[], rfl, .nil⟩
  | cons hva _ ih =>
    cases hb with
    | cons hvb hb =>
      obtain ⟨c, hc, hwc⟩ := mergeSlot_least hl hva hvb
      obtain ⟨cs, hcs, hws⟩ := ih hb
      exact ⟨c :: cs, by simp [mergeStack, hc, hcs], .cons hwc hws⟩

theorem getElem?_mergeLocals {h : Hierarchy} {as bs : List VType} {i : Nat} {c : VType} :
    (mergeLocals h as bs)[i]? = some c ↔
      ∃ a b, as[i]? = some a ∧ bs[i]? = some b ∧ (mergeSlot h a b).getD .top = c := by
  rw [mergeLocals, List.getElem?_zipWith_eq_some]

theorem mergeLocals_upper {h : Hierarchy} (hl : h.Lawful) (as bs : List VType) :
    LocalsUnder (fun v w => VType.Accepts h w v) as (mergeLocals h as bs) ∧
      LocalsUnder (fun v w => VType.Accepts h w v) bs (mergeLocals h as bs) := by
  constructor
  all_goals
    intro i w hw
    obtain ⟨a, b, ha, hb, rfl⟩ := getElem?_mergeLocals.1 hw
    refine ⟨_, ‹_›, ?_⟩
    cases hm : mergeSlot h a b with
    | none => exact .inl rfl
    | some c =>
      obtain ⟨hca, hcb⟩ := mergeSlot_upper hl hm
      exact .inr (by assumption)

theorem merge_eq_ok {h : Hierarchy} {i : Nat} {f g k : Frame} :
    f.merge h i g = .ok k ↔
      mergeStack h f.stack g.stack = some k.stack ∧ k.locals = mergeLocals h f.locals g.locals := by
  unfold merge
  cases k with
  | mk ls ss =>
    cases hm : mergeStack h f.stack g.stack with
    | none => simp
    | some cs =>
      simp only [Except.ok.injEq, Frame.mk.injEq, Option.some.injEq]
      constructor
      · rintro ⟨rfl, rfl⟩
        exact ⟨rfl, rfl⟩
      · rintro ⟨rfl, rfl⟩
        exact ⟨rfl, rfl⟩

/-- The merge of two frames accepts both. -/
theorem merge_upper {h : Hierarchy} (hl : h.Lawful) {i : Nat} {f g k : Frame}
    (hm : f.merge h i g = .ok k) : k.Accepts h f ∧ k.Accepts h g := by
  obtain ⟨hs, hk⟩ := merge_eq_ok.1 hm
  obtain ⟨s1, s2⟩ := mergeStack_upper hl hs
  obtain ⟨l1, l2⟩ := mergeLocals_upper hl f.locals g.locals
  rw [← hk] at l1 l2
  exact ⟨⟨s1, l1⟩, ⟨s2, l2⟩⟩

/-- A frame that accepts two others accepts their merge, which there is. -/
theorem merge_least {h : Hierarchy} (hl : h.Lawful) (i : Nat) {w f g : Frame}
    (hf : w.Accepts h f) (hg : w.Accepts h g) : ∃ k, f.merge h i g = .ok k ∧ w.Accepts h k := by
  obtain ⟨cs, hcs, hws⟩ := mergeStack_least hl hf.stack hg.stack
  refine ⟨⟨mergeLocals h f.locals g.locals, cs⟩, merge_eq_ok.2 ⟨hcs, rfl⟩, ⟨hws, ?_⟩⟩
  intro j v hv
  obtain ⟨a, ha, hva⟩ := hf.locals j v hv
  obtain ⟨b, hb, hvb⟩ := hg.locals j v hv
  refine ⟨_, getElem?_mergeLocals.2 ⟨a, b, ha, hb, rfl⟩, ?_⟩
  rcases hva with rfl | hva
  · exact .inl rfl
  · rcases hvb with rfl | hvb
    · exact .inl rfl
    · obtain ⟨c, hc, hvc⟩ := mergeSlot_least hl hva hvb
      rw [hc]
      exact .inr hvc

/-- Acceptance said with the merge itself. -/
theorem accepts_iff {h : Hierarchy} {f g : Frame} (i : Nat) :
    f.Accepts h g ↔ f.merge h i g = .ok f := by
  rw [merge_eq_ok]
  constructor
  · rintro ⟨hs, hls⟩
    refine ⟨?_, ?_⟩
    · generalize f.stack = fs, g.stack = gs at hs ⊢
      induction hs with
      | nil => rfl
      | cons hv _ ih =>
        have hv' : mergeSlot h _ _ = some _ := hv
        simp [mergeStack, hv', ih]
    · refine List.ext_getElem? fun j => ?_
      cases hj : f.locals[j]? with
      | none =>
        symm
        rw [List.getElem?_eq_none_iff] at hj ⊢
        simp only [mergeLocals, List.length_zipWith]
        omega
      | some w =>
        symm
        obtain ⟨v, hv, hwv⟩ := hls j w hj
        refine getElem?_mergeLocals.2 ⟨w, v, hj, hv, ?_⟩
        rcases hwv with rfl | hwv
        · by_cases e : VType.top = v
          · rw [← e, mergeSlot_self]
            rfl
          · cases v <;> simp_all [mergeSlot]
        · rw [show mergeSlot h w v = some w from hwv]
          rfl
  · rintro ⟨hs, hls⟩
    obtain ⟨h1, h2, h3⟩ := mergeStack_eq_some hs
    refine ⟨?_, ?_⟩
    · rw [List.forall₂_iff_get]
      refine ⟨h1.symm, fun j hg hf => ?_⟩
      obtain ⟨c, hc, hm⟩ := h3 j f.stack[j] g.stack[j] (List.getElem?_eq_getElem _)
        (List.getElem?_eq_getElem _)
      rw [List.getElem?_eq_getElem hf, Option.some.injEq] at hc
      rw [← hc] at hm
      exact hm
    · intro j w hw
      rw [hls] at hw
      obtain ⟨a, b, ha, hb, hab⟩ := getElem?_mergeLocals.1 hw
      rw [← hls, ha, Option.some.injEq] at hw
      subst hw
      refine ⟨b, hb, ?_⟩
      cases hm : mergeSlot h a b with
      | none =>
        rw [hm] at hab
        exact .inl hab.symm
      | some c =>
        rw [hm] at hab
        exact .inr (hm.trans (congrArg some hab))

theorem length_refineSlots (vs hints : List VType) : (refineSlots vs hints).length = vs.length := by
  fun_induction refineSlots vs hints with
  | case1 v vs hint hints ih => simp [ih]
  | case2 => rfl

end Frame

end Interpose
