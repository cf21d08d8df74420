import Interpose.Proofs.ClassFile.Lossless
import Interpose.Proofs.ClassFile.Format
/-!
# What was read fits

Whatever a class file holds was counted by its own counts, so it fits the format again
(`ClassFile.Settled`): every list has a length of two bytes, every attribute can be written with a body
of less than 2^32 bytes, and the pool is regular if its slots can be numbered. All of that stays true of
a part when the pool grows (`Attribute.AllSettled.grows`).
-/

namespace Interpose

structure Attribute.Settled (p : Pool) (a : Attribute) : Prop where
  lists : a.ListsFit
  written : ∃ body, a.writeBody p = .ok body ∧ body.length < 0x100000000

/-- Attributes that, with all attributes inside them, can be written and fit the format. -/
structure Attribute.AllSettled (p : Pool) (attributes : List Attribute) : Prop where
  count : Countable attributes
  each : ∀ a ∈ attributes, a.Throughout (Settled p)

namespace Reader

/-- Whatever the reader makes of bytes has the property. -/
def Yields {α : Type} (r : Reader α) (P : α → Prop) : Prop :=
  ∀ ⦃s a rest⦄, r s = .ok (a, rest) → P a

variable {α : Type} {r : Reader α} {P : α → Prop} {s rest : Bytes}

theorem Yields.many (h : Yields r P) {n : Nat} : Yields (many n r) fun as => ∀ a ∈ as, P a := by
  induction n with
  | zero =>
    intro s as rest hread
    rw [(many_zero.1 hread).1]
    exact nofun
  | succ n ih =>
    intro s as rest hread
    obtain ⟨a, mid, as, ha, has, rfl⟩ := many_succ.1 hread
    exact List.forall_mem_cons.2 ⟨h ha, ih has⟩

theorem Yields.counted (h : Yields r P) :
    Yields (counted r) fun as => Countable as ∧ ∀ a ∈ as, P a := by
  intro s as rest hread
  obtain ⟨n, mid, -, hread⟩ := counted_eq_ok.1 hread
  refine ⟨?_, h.many hread⟩
  rw [Countable, many_length hread]
  exact n.toNat_lt

theorem counted_countable {as : List α} (h : counted r s = .ok (as, rest)) : Countable as :=
  (Yields.counted (P := fun _ => True) (fun _ _ _ _ => trivial) h).1

theorem stackMapFrame_fits : Yields stackMapFrame StackMapFrame.Fits := by
  intro s f rest h
  obtain ⟨tag, s₁, htag, h⟩ := bind_eq_ok.1 h
  split at h
  case isTrue hle =>
    obtain ⟨rfl, -⟩ := pure_eq_ok.1 h
    change tag.toUInt16.toNat ≤ 63
    rw [UInt8.toNat_toUInt16]
    exact UInt8.le_iff_toNat_le.1 hle
  split at h
  case isTrue hgt hle =>
    obtain ⟨stack, s₂, -, h⟩ := bind_eq_ok.1 h
    obtain ⟨rfl, -⟩ := pure_eq_ok.1 h
    change (tag - 64).toUInt16.toNat ≤ 63
    simp only [UInt8.le_iff_toNat_le, UInt8.reduceToNat] at hgt hle
    rw [UInt8.toNat_toUInt16, UInt8.toNat_sub_of_le _ _ (UInt8.le_iff_toNat_le.2 (by simp; omega))]
    simp only [UInt8.reduceToNat]
    omega
  split at h
  · exact absurd h fail_ne_ok
  split at h
  · obtain ⟨delta, s₂, -, h⟩ := bind_eq_ok.1 h
    obtain ⟨stack, s₃, -, h⟩ := bind_eq_ok.1 h
    obtain ⟨rfl, -⟩ := pure_eq_ok.1 h
    trivial
  split at h
  case isTrue hge hne hle =>
    obtain ⟨delta, s₂, -, h⟩ := bind_eq_ok.1 h
    obtain ⟨rfl, -⟩ := pure_eq_ok.1 h
    change 1 ≤ (251 - tag).toNat ∧ (251 - tag).toNat ≤ 3
    simp only [UInt8.lt_iff_toNat_lt, UInt8.le_iff_toNat_le, ← UInt8.toNat_inj,
      UInt8.reduceToNat] at hge hne hle
    rw [UInt8.toNat_sub_of_le _ _ (UInt8.le_iff_toNat_le.2 (by simp; omega))]
    simp only [UInt8.reduceToNat]
    omega
  split at h
  · obtain ⟨delta, s₂, -, h⟩ := bind_eq_ok.1 h
    obtain ⟨rfl, -⟩ := pure_eq_ok.1 h
    trivial
  split at h
  case isTrue hgt hne hle =>
    obtain ⟨delta, s₂, -, h⟩ := bind_eq_ok.1 h
    obtain ⟨locals, s₃, hlocals, h⟩ := bind_eq_ok.1 h
    obtain ⟨rfl, -⟩ := pure_eq_ok.1 h
    change 1 ≤ locals.length ∧ locals.length ≤ 3
    rw [many_length hlocals]
    simp only [UInt8.le_iff_toNat_le, ← UInt8.toNat_inj, UInt8.reduceToNat] at hgt hne hle
    omega
  · obtain ⟨delta, s₂, -, h⟩ := bind_eq_ok.1 h
    obtain ⟨locals, s₃, hlocals, h⟩ := bind_eq_ok.1 h
    obtain ⟨stack, s₄, hstack, h⟩ := bind_eq_ok.1 h
    obtain ⟨rfl, -⟩ := pure_eq_ok.1 h
    exact ⟨counted_countable hlocals, counted_countable hstack⟩

theorem annotationOf_fits {element : Reader ElementValue} (h : Yields element ElementValue.Fits) :
    Yields (annotationOf element) AnnotationEntry.Fits := by
  have hpair : Yields (do return (← u2, ← element)) fun pair => pair.2.Fits := by
    intro s pair rest hread
    obtain ⟨name, s₁, -, hread⟩ := bind_eq_ok.1 hread
    obtain ⟨v, s₂, hv, hread⟩ := bind_eq_ok.1 hread
    obtain ⟨rfl, -⟩ := pure_eq_ok.1 hread
    exact h hv
  intro s a rest hread
  obtain ⟨type, s₁, -, hread⟩ := bind_eq_ok.1 hread
  obtain ⟨pairs, s₂, hpairs, hread⟩ := bind_eq_ok.1 hread
  obtain ⟨rfl, -⟩ := pure_eq_ok.1 hread
  obtain ⟨hcount, hvalues⟩ := hpair.counted hpairs
  exact ⟨hcount, hvalues⟩

theorem elementValue_fits (depth : Nat) : Yields (elementValue depth) ElementValue.Fits := by
  induction depth with
  | zero => exact fun _ _ _ h => absurd h fail_ne_ok
  | succ depth ih =>
    intro s v rest h
    obtain ⟨tag, s₁, -, h⟩ := bind_eq_ok.1 h
    split at h
    case isTrue htag =>
      obtain ⟨index, s₂, -, h⟩ := bind_eq_ok.1 h
      obtain ⟨rfl, -⟩ := pure_eq_ok.1 h
      exact .const htag
    split at h
    · obtain ⟨typeName, s₂, -, h⟩ := bind_eq_ok.1 h
      obtain ⟨constName, s₃, -, h⟩ := bind_eq_ok.1 h
      obtain ⟨rfl, -⟩ := pure_eq_ok.1 h
      exact .enumConst
    split at h
    · obtain ⟨index, s₂, -, h⟩ := bind_eq_ok.1 h
      obtain ⟨rfl, -⟩ := pure_eq_ok.1 h
      exact .classInfo
    split at h
    · obtain ⟨a, s₂, ha, h⟩ := bind_eq_ok.1 h
      obtain ⟨rfl, -⟩ := pure_eq_ok.1 h
      have hfits := annotationOf_fits ih ha
      exact .nested hfits.count hfits.values
    split at h
    · obtain ⟨values, s₂, hvalues, h⟩ := bind_eq_ok.1 h
      obtain ⟨rfl, -⟩ := pure_eq_ok.1 h
      obtain ⟨hcount, heach⟩ := ih.counted hvalues
      exact .array hcount heach
    · exact absurd h fail_ne_ok

theorem annotations_fits :
    Yields annotations fun as => Countable as ∧ ∀ a ∈ as, a.Fits :=
  fun s _ _ h => (annotationOf_fits (elementValue_fits s.length)).counted h

/-! ## Attributes -/

/-- The lists of an attribute that is no code fit the format. -/
theorem attributeBody_fits {name : String} {code : Reader CodeAttribute} {a : Attribute}
    (hname : name ≠ "Code") (h : attributeBody name code s = .ok (a, rest)) :
    a.ListsFit ∧ ∀ body, a ≠ .code body := by
  have of_yields {β : Type} {item : Reader β} {P : β → Prop} {make : β → Attribute}
      (h : (do return make (← item) : Reader Attribute) s = .ok (a, rest)) (hitem : Yields item P)
      (hmake : ∀ v, P v → (make v).ListsFit) (hcode : ∀ v body, make v ≠ .code body) :
      a.ListsFit ∧ ∀ body, a ≠ .code body := by
    obtain ⟨v, s₁, hv, h⟩ := bind_eq_ok.1 h
    obtain ⟨rfl, -⟩ := pure_eq_ok.1 h
    exact ⟨hmake v (hitem hv), hcode v⟩
  have every {β : Type} (item : Reader β) : Yields item fun _ => True := fun _ _ _ _ => trivial
  unfold attributeBody at h
  split at h
  case h_1 => exact absurd rfl hname
  case h_2 => exact of_yields h stackMapFrame_fits.counted (fun _ hv => hv) nofun
  case h_3 => exact of_yields h (every u2).counted (fun _ hv => hv.1) nofun
  case h_4 => exact of_yields h (every u2) (fun _ _ => trivial) nofun
  case h_5 => exact of_yields h (every lineEntry).counted (fun _ hv => hv.1) nofun
  case h_6 | h_7 => exact of_yields h (every localEntry).counted (fun _ hv => hv.1) nofun
  case h_8 | h_9 => exact of_yields h annotations_fits (fun _ hv => hv) nofun
  case h_10 =>
    cases h
    refine ⟨?_, nofun⟩
    simp_all [Attribute.ListsFit, modelledNames]

/-- Attributes of every depth can be written and fit the format. -/
theorem oneAttribute_settled (p : Pool) (depth : Nat) :
    Yields (oneAttribute p depth) fun a => a.Throughout (Attribute.Settled p) := by
  induction depth with
  | zero => exact fun _ _ _ h => absurd h fail_ne_ok
  | succ depth ih =>
    intro s a rest h
    obtain ⟨_, -, used, out, hused, hout, hrewrites⟩ := oneAttribute_rewrites p (depth + 1) h
    obtain ⟨slot, s₁, hslot, h₁⟩ := bind_eq_ok.1 h
    obtain ⟨length, s₂, hlength, h₂⟩ := bind_eq_ok.1 h₁
    obtain ⟨name, s₃, htext, h₃⟩ := bind_eq_ok.1 h₂
    obtain ⟨info, s₄, hinfo, h₄⟩ := bind_eq_ok.1 h₃
    obtain ⟨⟨a', unread⟩, s₅, hlift, h₅⟩ := bind_eq_ok.1 h₄
    obtain ⟨hname, rfl⟩ := lift_eq_ok.1 htext
    obtain ⟨hbody, rfl⟩ := lift_eq_ok.1 hlift
    obtain ⟨hlen, hs₂⟩ := take_eq_ok.1 hinfo
    simp only at h₅
    split at h₅
    case isFalse => exact absurd h₅ fail_ne_ok
    case isTrue hunread =>
    obtain ⟨rfl, rfl⟩ := pure_eq_ok.1 h₅
    -- what is written of the body is no longer than what was read, which was counted in four bytes
    have hwritten : ∃ body, a'.writeBody p = .ok body ∧ body.length < 0x100000000 := by
      rw [Attribute.write] at hout
      obtain ⟨index, -, hout⟩ := Interpose.bind_eq_ok.1 hout
      obtain ⟨body, hbody, hout⟩ := Interpose.bind_eq_ok.1 hout
      cases hout
      refine ⟨body, hbody, ?_⟩
      have hle := hrewrites.length_le
      have hlt := length.toNat_lt
      have hs : s.length = used.length + s₄.length := by rw [hused, List.length_append]
      have hs' : s.length = 6 + info.length + s₄.length := by
        rw [u2_exact hslot, u4_exact hlength, hs₂]
        simp [bytesOfU2, bytesOfU4]
        omega
      rw [framedAttribute_length] at hle
      omega
    by_cases hcode : name = "Code"
    · subst hcode
      obtain ⟨body, hread, rfl⟩ := attributeBody_code hbody
      obtain ⟨maxStack, s₁, -, hread⟩ := bind_eq_ok.1 hread
      obtain ⟨maxLocals, s₂, -, hread⟩ := bind_eq_ok.1 hread
      obtain ⟨length, s₃, -, hread⟩ := bind_eq_ok.1 hread
      obtain ⟨code, s₄, -, hread⟩ := bind_eq_ok.1 hread
      obtain ⟨exceptions, s₅, hexceptions, hread⟩ := bind_eq_ok.1 hread
      obtain ⟨attributes, s₆, hattributes, hread⟩ := bind_eq_ok.1 hread
      obtain ⟨rfl, -⟩ := pure_eq_ok.1 hread
      obtain ⟨hcount, heach⟩ := ih.counted hattributes
      refine ⟨⟨⟨counted_countable hexceptions, hcount⟩, hwritten⟩, fun body hbody => ?_⟩
      cases hbody
      exact heach
    · obtain ⟨hlists, hcode⟩ := attributeBody_fits hcode hbody
      exact ⟨⟨hlists, hwritten⟩, fun body hbody => absurd hbody (hcode body)⟩

theorem attributes_settled (p : Pool) : Yields (attributes p) (Attribute.AllSettled p) := by
  intro s as rest h
  obtain ⟨hcount, heach⟩ := (oneAttribute_settled p (s.length + 1)).counted h
  exact ⟨hcount, heach⟩

theorem member_settled (p : Pool) :
    Yields (member p) fun m => Attribute.AllSettled p m.attributes := by
  intro s m rest h
  obtain ⟨access, s₁, -, h⟩ := bind_eq_ok.1 h
  obtain ⟨name, s₂, -, h⟩ := bind_eq_ok.1 h
  obtain ⟨descriptor, s₃, -, h⟩ := bind_eq_ok.1 h
  obtain ⟨attributes, s₄, hattributes, h⟩ := bind_eq_ok.1 h
  obtain ⟨rfl, -⟩ := pure_eq_ok.1 h
  exact attributes_settled p hattributes

/-! ## The pool -/

/-- The constants that are read come behind those of the pool. -/
theorem constants_slots {remaining : Nat} {p q : Pool} (h : constants remaining p s = .ok (q, rest)) :
    ∃ cs : List Constant, q.slots.toList = p.slots.toList ++ cs.flatMap Constant.slots := by
  fun_induction constants remaining p s with
  | case1 p s =>
    obtain ⟨rfl, -⟩ := Prod.mk.inj (Except.ok.inj h)
    exact ⟨[], by simp⟩
  | case2 => cases h
  | case3 remaining p s hpos c mid hc ih =>
    obtain ⟨cs, hcs⟩ := ih h
    refine ⟨c :: cs, ?_⟩
    rw [hcs, Pool.appendConstant_slots, List.flatMap_cons, List.append_assoc]

/-- Reading goes at most one slot beyond what was declared. -/
theorem constants_count_le {remaining : Nat} {p q : Pool}
    (h : constants remaining p s = .ok (q, rest)) :
    q.count ≤ p.count + remaining + 1 ∧ (remaining = 0 → q.count = p.count) := by
  fun_induction constants remaining p s with
  | case1 p s =>
    obtain ⟨rfl, -⟩ := Prod.mk.inj (Except.ok.inj h)
    omega
  | case2 => cases h
  | case3 remaining p s hpos c mid hc ih =>
    have hread := ih h
    have hcount := p.appendConstant_count c
    have hwidth : c.width ≤ 2 := by unfold Constant.width; split <;> omega
    omega

/-- A pool that was read is sound. -/
theorem pool_sound {q : Pool} (h : pool s = .ok (q, rest)) : q.Sound := by
  obtain ⟨declared, mid, -, h⟩ := bind_eq_ok.1 h
  obtain ⟨cs, hcs⟩ := constants_slots h
  have hdeclared := declared.toNat_lt
  have hcount := constants_count_le h
  have hone : Pool.empty.count = 1 := rfl
  refine ⟨?_, ?_⟩
  · rw [← Array.getElem?_toList, hcs]
    rfl
  · change q.count ≤ _
    omega

/-- A pool that was read is regular if its slots can be numbered. -/
theorem pool_regular {q : Pool} (h : pool s = .ok (q, rest)) (hcount : q.count < 0x10000) :
    q.Regular := by
  obtain ⟨declared, mid, -, h⟩ := bind_eq_ok.1 h
  obtain ⟨cs, hcs⟩ := constants_slots h
  exact .of_slots hcount hcs

end Reader

/-! ## In a larger pool -/

section Grown

variable {p q : Pool} (hgrows : p.Grows q)
include hgrows

/-- The lowest slot of a name is the same in a larger pool. -/
theorem attributeNameSlot_grows {name : String} {index : UInt16}
    (h : attributeNameSlot p name = .ok index) : attributeNameSlot q name = .ok index := by
  unfold attributeNameSlot at h ⊢
  rw [Pool.findUtf8_eq] at h ⊢
  cases hm : lowestSlot p.slots (.utf8 name) with
  | none =>
    rw [hm] at h
    cases h
  | some m =>
    rw [Pool.lowestSlot_of_isPrefix hgrows.isPrefix hm]
    rwa [hm] at h

namespace Attribute

/-- An attribute is written the same way if its body is. -/
theorem write_grows {a : Attribute} {out : Bytes}
    (hbody : ∀ body, a.writeBody p = .ok body → a.writeBody q = .ok body)
    (h : a.write p = .ok out) : a.write q = .ok out := by
  rw [write] at h ⊢
  obtain ⟨index, hindex, h⟩ := bind_eq_ok.1 h
  obtain ⟨body, hwritten, h⟩ := bind_eq_ok.1 h
  exact bind_eq_ok.2 ⟨index, attributeNameSlot_grows hgrows hindex,
    bind_eq_ok.2 ⟨body, hbody body hwritten, h⟩⟩

theorem writeAll_grows {as : List Attribute} {out : Bytes}
    (heach : ∀ a ∈ as, ∀ body, a.writeBody p = .ok body → a.writeBody q = .ok body)
    (h : writeAll p as = .ok out) : writeAll q as = .ok out := by
  rw [writeAll_eq_mapM] at h ⊢
  obtain ⟨parts, hparts, rfl⟩ := map_eq_ok.1 h
  refine map_eq_ok.2 ⟨parts, mapM_eq_ok.2 ?_, rfl⟩
  exact forall₂_imp_of_mem (mapM_eq_ok.1 hparts) fun a ha _ _ =>
    write_grows hgrows (heach a ha)

/-- Only the names inside an attribute depend on the pool. -/
theorem Throughout.writeBody_grows {P : Attribute → Prop} {a : Attribute} (ha : a.Throughout P) :
    ∀ body, a.writeBody p = .ok body → a.writeBody q = .ok body := by
  induction ha with
  | @intro a _ _ ih =>
    intro body h
    cases a with
    | code c =>
      obtain ⟨maxStack, maxLocals, code, exceptions, attributes⟩ := c
      rw [writeBody, CodeAttribute.write] at h ⊢
      obtain ⟨inner, hinner, h⟩ := bind_eq_ok.1 h
      exact bind_eq_ok.2 ⟨inner, writeAll_grows hgrows (ih _ rfl) hinner, h⟩
    | _ => rwa [writeBody] at h ⊢

theorem Throughout.settled_grows {a : Attribute} (ha : a.Throughout (Settled p)) :
    a.Throughout (Settled q) := by
  induction ha with
  | intro here inside ih =>
    obtain ⟨body, hbody, hlength⟩ := here.written
    exact ⟨⟨here.lists, body, Throughout.writeBody_grows hgrows ⟨here, inside⟩ body hbody, hlength⟩,
      ih⟩

theorem AllSettled.grows {as : List Attribute} (h : AllSettled p as) : AllSettled q as :=
  ⟨h.count, fun a ha => (h.each a ha).settled_grows hgrows⟩

end Attribute

end Grown

namespace Attribute

theorem Throughout.imp {P Q : Attribute → Prop} (h : ∀ a, P a → Q a) {a : Attribute}
    (ha : a.Throughout P) : a.Throughout Q := by
  induction ha with
  | intro here _ ih => exact ⟨h _ here, ih⟩

theorem Settled.fits {p : Pool} {a : Attribute} (h : a.Settled p) : a.Fits p := by
  obtain ⟨body, hbody, hlength⟩ := h.written
  refine ⟨h.lists, fun body' hbody' => ?_⟩
  cases hbody.symm.trans hbody'
  exact hlength

theorem AllSettled.allFit {p : Pool} {as : List Attribute} (h : AllSettled p as) : AllFit p as :=
  ⟨h.count, fun a ha => (h.each a ha).imp fun _ => Settled.fits⟩

end Attribute

/-! ## Whole files -/

namespace ClassFile

/-- A class file holds the pool that is read behind its magic number and its versions. -/
theorem pool_read {bytes : Bytes} {c : ClassFile} (h : parse bytes = .ok c) :
    ∃ magic minorVersion majorVersion s₁ s₂ s₃ s₄, Reader.u4 bytes = .ok (magic, s₁) ∧
      Reader.u2 s₁ = .ok (minorVersion, s₂) ∧ Reader.u2 s₂ = .ok (majorVersion, s₃) ∧
      Reader.pool s₃ = .ok (c.pool, s₄) := by
  obtain ⟨⟨c', rest⟩, hread, rfl⟩ := map_eq_ok.1 h
  obtain ⟨magic, s₁, hmagic, hread⟩ := Reader.bind_eq_ok.1 hread
  split at hread
  · cases hread
  obtain ⟨minorVersion, s₂, hminor, hread⟩ := Reader.bind_eq_ok.1 hread
  obtain ⟨majorVersion, s₃, hmajor, hread⟩ := Reader.bind_eq_ok.1 hread
  obtain ⟨p, s₄, hpool, hread⟩ := Reader.bind_eq_ok.1 hread
  refine ⟨magic, minorVersion, majorVersion, s₁, s₂, s₃, s₄, hmagic, hminor, hmajor, ?_⟩
  obtain ⟨access, s₅, -, hread⟩ := Reader.bind_eq_ok.1 hread
  obtain ⟨thisClass, s₆, -, hread⟩ := Reader.bind_eq_ok.1 hread
  obtain ⟨superClass, s₇, -, hread⟩ := Reader.bind_eq_ok.1 hread
  obtain ⟨interfaces, s₈, -, hread⟩ := Reader.bind_eq_ok.1 hread
  obtain ⟨fields, s₉, -, hread⟩ := Reader.bind_eq_ok.1 hread
  obtain ⟨methods, s₁₀, -, hread⟩ := Reader.bind_eq_ok.1 hread
  obtain ⟨attributes, s₁₁, -, hread⟩ := Reader.bind_eq_ok.1 hread
  obtain ⟨rfl, -⟩ := Reader.pure_eq_ok.1 hread
  exact hpool

/-- The pool of a class file that was read is sound, even where a wide constant is cut off. -/
theorem pool_sound {bytes : Bytes} {c : ClassFile} (h : parse bytes = .ok c) : c.pool.Sound := by
  obtain ⟨_, _, _, _, _, _, _, -, -, -, hpool⟩ := pool_read h
  exact Reader.pool_sound hpool

/-- The number of slots that a class file declares, behind its magic number and its versions. -/
def declaredCount (bytes : Bytes) : Nat :=
  match bytes.drop 8 with
  | a :: b :: _ => (u2OfBytes a b).toNat
  | _ => 0

/-- No wide constant is cut off by the declared number of slots. -/
def PoolWhole (bytes : Bytes) (c : ClassFile) : Prop :=
  ∀ i k, (i, k) ∈ c.pool.constants → k.isWide → i + 1 < declaredCount bytes

/-- The slots of a pool that is not cut off can be numbered. -/
theorem PoolWhole.count_lt {bytes : Bytes} {c : ClassFile} (hwhole : c.PoolWhole bytes)
    (h : parse bytes = .ok c) : c.pool.count < 0x10000 := by
  obtain ⟨_, _, _, _, _, _, _, hmagic, hminor, hmajor, hpool⟩ := pool_read h
  obtain ⟨declared, mid, hdeclared, hpool⟩ := Reader.bind_eq_ok.1 hpool
  obtain ⟨entries, -, hconstants, -, -, -, hfit⟩ := Reader.entriesFrom_of_constants hpool rfl
  have hcount : declaredCount bytes = declared.toNat := by
    rw [Reader.u4_exact hmagic, Reader.u2_exact hminor, Reader.u2_exact hmajor,
      Reader.u2_exact hdeclared]
    exact congrArg UInt16.toNat (Reader.u2OfBytes_toNat declared)
  have hlt := declared.toNat_lt
  have hcount : c.pool.count = max 1 declared.toNat := by
    refine hfit.2 fun e he hwide => ?_
    rw [← hcount]
    refine hwhole e.slot e.constant ?_ hwide
    rw [hconstants]
    exact List.mem_append_right _ (List.mem_map_of_mem he)
  omega

end ClassFile

structure ClassFile.Settled (c : ClassFile) : Prop where
  pool : c.pool.Regular
  interfaces : Countable c.interfaces
  fields : Countable c.fields
  methods : Countable c.methods
  ofFields : ∀ m ∈ c.fields, Attribute.AllSettled c.pool m.attributes
  ofMethods : ∀ m ∈ c.methods, Attribute.AllSettled c.pool m.attributes
  attributes : Attribute.AllSettled c.pool c.attributes

/-- A class file that was read can be written and fits the format, if its slots can be numbered. -/
theorem ClassFile.settled_of_parse {bytes : Bytes} {c : ClassFile} (h : ClassFile.parse bytes = .ok c)
    (hcount : c.pool.count < 0x10000) : c.Settled := by
  obtain ⟨⟨c', rest⟩, hread, rfl⟩ := map_eq_ok.1 h
  obtain ⟨magic, s₁, -, hread⟩ := Reader.bind_eq_ok.1 hread
  split at hread
  · cases hread
  obtain ⟨minorVersion, s₂, -, hread⟩ := Reader.bind_eq_ok.1 hread
  obtain ⟨majorVersion, s₃, -, hread⟩ := Reader.bind_eq_ok.1 hread
  obtain ⟨p, s₄, hpool, hread⟩ := Reader.bind_eq_ok.1 hread
  obtain ⟨access, s₅, -, hread⟩ := Reader.bind_eq_ok.1 hread
  obtain ⟨thisClass, s₆, -, hread⟩ := Reader.bind_eq_ok.1 hread
  obtain ⟨superClass, s₇, -, hread⟩ := Reader.bind_eq_ok.1 hread
  obtain ⟨interfaces, s₈, hinterfaces, hread⟩ := Reader.bind_eq_ok.1 hread
  obtain ⟨fields, s₉, hfields, hread⟩ := Reader.bind_eq_ok.1 hread
  obtain ⟨methods, s₁₀, hmethods, hread⟩ := Reader.bind_eq_ok.1 hread
  obtain ⟨attributes, s₁₁, hattributes, hread⟩ := Reader.bind_eq_ok.1 hread
  obtain ⟨rfl, rfl⟩ := Reader.pure_eq_ok.1 hread
  obtain ⟨hcountFields, hofFields⟩ := (Reader.member_settled p).counted hfields
  obtain ⟨hcountMethods, hofMethods⟩ := (Reader.member_settled p).counted hmethods
  exact ⟨Reader.pool_regular hpool hcount, Reader.counted_countable hinterfaces, hcountFields,
    hcountMethods, hofFields, hofMethods, Reader.attributes_settled p hattributes⟩

end Interpose
