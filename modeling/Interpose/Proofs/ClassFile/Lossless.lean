import Interpose.Proofs.ClassFile.Outline
import Interpose.Proofs.Pool.Interning
/-!
# Writing back what was read

A class file that was read can always be written again. The bytes come out as they were exactly if the
file stood in its one form to begin with (`Outline.Canonical`): every part is either written as it was
read, or has a shorter or equally long form that the writer prefers.

Results:
* `pool_rewrites`: the constant pool, whose count and texts may change.
* `oneAttribute_rewrites`: an attribute, whose name may move to a lower slot, at every depth.
* `ClassFile.toBytes_eq_iff`: the whole file.
-/

namespace Interpose

/-- What was read between two places is written again, and the same way if the condition holds. -/
def Rewritten (s rest : Bytes) (written : Except FormatError Bytes) (P : Prop) : Prop :=
  ∃ used out, s = used ++ rest ∧ written = .ok out ∧ Rewrites used out P

theorem Rewritten.congr {s rest : Bytes} {written : Except FormatError Bytes} {P Q : Prop}
    (h : Rewritten s rest written P) (hPQ : P ↔ Q) : Rewritten s rest written Q := by
  obtain ⟨used, out, hs, hout, h⟩ := h
  exact ⟨used, out, hs, hout, h.congr hPQ⟩

theorem Rewritten.mapM_cons {α : Type} {s mid rest : Bytes} {write : α → Except FormatError Bytes}
    {a : α} {as : List α} {P Q : Prop} (h : Rewritten s mid (write a) P)
    (h' : Rewritten mid rest ((as.mapM write).map List.flatten) Q) :
    Rewritten s rest (((a :: as).mapM write).map List.flatten) (P ∧ Q) := by
  obtain ⟨used, out, rfl, hout, hrewrites⟩ := h
  obtain ⟨used', out', rfl, hout', hrewrites'⟩ := h'
  obtain ⟨outs, houts, rfl⟩ := map_eq_ok.1 hout'
  refine ⟨used ++ used', out ++ outs.flatten, (List.append_assoc ..).symm, ?_,
    hrewrites.append hrewrites'⟩
  exact map_eq_ok.2 ⟨out :: outs, mapM_cons_eq_ok.2 ⟨out, outs, hout, houts, rfl⟩, rfl⟩

/-! ## The constant pool -/

def PoolEntry.write (e : PoolEntry) : Except FormatError Bytes := e.constant.write

namespace Pool

theorem append_constants (p : Pool) (slot : Option Constant) :
    (p.append slot).constants = p.constants ++ (slot.map (p.count, ·)).toList := by
  simp [constants, append_slots, List.zipIdx_append, count, List.filterMap_cons]
  cases slot <;> rfl

theorem appendConstant_constants (p : Pool) (c : Constant) :
    (p.appendConstant c).constants = p.constants ++ [(p.count, c)] := by
  unfold appendConstant
  split <;> simp [append_constants]

theorem mem_constants {p : Pool} {i : Nat} {c : Constant} :
    (i, c) ∈ p.constants ↔ p.slots[i]? = some (some c) := by
  simp [constants, List.mem_filterMap, List.mem_zipIdx_iff_getElem?]

end Pool

namespace Reader

variable {s rest : Bytes}

theorem take_used (used rest : Bytes) :
    (used ++ rest).take ((used ++ rest).length - rest.length) = used := by
  rw [List.length_append, Nat.add_sub_cancel, List.take_left]

/-- Only the bytes of a text can be written in another way than they were read. -/
theorem constant_rewrites {c : Constant} (h : constant s = .ok (c, rest)) :
    Rewritten s rest c.write
      (∀ text, c = .utf8 text → ModifiedUtf8.IsShortest ((s.take (s.length - rest.length)).drop 3)) := by
  obtain ⟨tag, s₁, htag, h⟩ := bind_eq_ok.1 h
  rw [u1_exact htag]
  have exact_part {out : Bytes} (hc : ∀ text, c ≠ .utf8 text) (hout : c.write = .ok (tag :: out))
      (hs : s₁ = out ++ rest) : Rewritten ([tag] ++ s₁) rest c.write (∀ text, c = .utf8 text →
        ModifiedUtf8.IsShortest ((([tag] ++ s₁).take (([tag] ++ s₁).length - rest.length)).drop 3)) :=
    ⟨tag :: out, tag :: out, by rw [hs]; rfl, hout,
      .congr .rfl ⟨fun _ text htext => absurd htext (hc text), fun _ => trivial⟩⟩
  split at h
  case h_1 =>
    obtain ⟨length, s₂, hlength, h⟩ := bind_eq_ok.1 h
    obtain ⟨bytes, s₃, hbytes, h⟩ := bind_eq_ok.1 h
    obtain ⟨text, s₄, hdecode, h⟩ := bind_eq_ok.1 h
    obtain ⟨rfl, rfl⟩ := pure_eq_ok.1 h
    obtain ⟨htext, rfl⟩ := lift_eq_ok.1 hdecode
    obtain ⟨hlen, rfl⟩ := take_eq_ok.1 hbytes
    rw [u2_exact hlength]
    have hrewrites := ModifiedUtf8.encode_rewrites htext
    have hle := hrewrites.length_le
    have hlt := length.toNat_lt
    have hused : [1] ++ (bytesOfU2 length ++ (bytes ++ s₃))
        = ([1] ++ (bytesOfU2 length ++ bytes)) ++ s₃ := by simp only [List.append_assoc]
    have hdrop : ([1] ++ (bytesOfU2 length ++ bytes)).drop 3 = bytes := by
      rw [List.singleton_append, List.drop_succ_cons, List.drop_left' (by simp [bytesOfU2])]
    rw [hused, take_used, hdrop]
    refine ⟨_, [1] ++ (bytesOfU2 (UInt16.ofNat (ModifiedUtf8.encode text).length)
      ++ ModifiedUtf8.encode text), rfl, ?_,
      (Rewrites.rfl.append ((u2_rewrites _ _).append hrewrites)).congr ?_⟩
    · rw [Constant.write, if_neg (by omega)]
      rfl
    · constructor
      · rintro ⟨-, -, hshort⟩ text' -
        exact hshort
      · intro hshort
        have hshort := hshort text rfl
        rw [hrewrites.eq_iff.2 hshort, hlen, UInt16.ofNat_toNat]
        exact ⟨trivial, rfl, hshort⟩
  case h_2 | h_3 =>
    obtain ⟨v, s₂, hv, h⟩ := bind_eq_ok.1 h
    obtain ⟨rfl, rfl⟩ := pure_eq_ok.1 h
    exact exact_part (fun _ htext => by cases htext) rfl (u4_exact hv)
  case h_4 | h_5 =>
    obtain ⟨v, s₂, hv, h⟩ := bind_eq_ok.1 h
    obtain ⟨rfl, rfl⟩ := pure_eq_ok.1 h
    exact exact_part (fun _ htext => by cases htext) rfl (u8_exact hv)
  case h_6 | h_7 | h_13 | h_16 | h_17 =>
    obtain ⟨v, s₂, hv, h⟩ := bind_eq_ok.1 h
    obtain ⟨rfl, rfl⟩ := pure_eq_ok.1 h
    exact exact_part (fun _ htext => by cases htext) rfl (u2_exact hv)
  case h_8 | h_9 | h_10 | h_11 | h_14 | h_15 =>
    obtain ⟨a, s₂, ha, h⟩ := bind_eq_ok.1 h
    obtain ⟨b, s₃, hb, h⟩ := bind_eq_ok.1 h
    obtain ⟨rfl, rfl⟩ := pure_eq_ok.1 h
    exact exact_part (fun _ htext => by cases htext) rfl (by rw [u2_exact ha, u2_exact hb]; exact (List.append_assoc ..).symm)
  case h_12 =>
    obtain ⟨kind, s₂, hkind, h⟩ := bind_eq_ok.1 h
    obtain ⟨reference, s₃, href, h⟩ := bind_eq_ok.1 h
    obtain ⟨rfl, rfl⟩ := pure_eq_ok.1 h
    exact exact_part (fun _ htext => by cases htext) rfl (by rw [u1_exact hkind, u2_exact href]; rfl)
  case h_18 => exact absurd h fail_ne_ok

/--
Up to a declared count, the constants read are those of the outline. The pool then has one slot more
than declared if the second slot of a wide constant went past the count, and no slot more otherwise.
-/
theorem entriesFrom_of_constants {remaining declared : Nat} {p q : Pool}
    (h : constants remaining p s = .ok (q, rest)) (hdeclared : declared - p.count = remaining) :
    ∃ entries, Outline.entriesFrom p.count declared s = .ok (entries, rest) ∧
      q.constants = p.constants ++ entries.map (fun e => (e.slot, e.constant)) ∧
      Rewritten s rest ((entries.mapM PoolEntry.write).map List.flatten)
        (∀ e ∈ entries, e.Shortest) ∧
      max p.count declared ≤ q.count ∧ q.count ≤ max p.count (declared + 1) ∧
      (q.count = max p.count declared ↔
        ∀ e ∈ entries, e.constant.isWide → e.slot + 1 < declared) := by
  fun_induction constants remaining p s with
  | case1 p s =>
    obtain ⟨rfl, rfl⟩ := Prod.mk.inj (Except.ok.inj h)
    refine ⟨[], ?_, by simp, ⟨[], [], rfl, rfl, .congr .rfl (by simp)⟩, by omega, by omega,
      by simp; omega⟩
    rw [Outline.entriesFrom, if_pos (by omega)]
  | case2 => cases h
  | case3 remaining p s hpos c mid hc ih =>
    have hcount := p.appendConstant_count c
    obtain ⟨entries, hentries, hconstants, hrewritten, hge, hle, hfit⟩ := ih h (by omega)
    have hfirst : Rewritten s mid (PoolEntry.write ⟨p.count, c, s.take (s.length - mid.length)⟩)
        (PoolEntry.Shortest ⟨p.count, c, s.take (s.length - mid.length)⟩) := constant_rewrites hc
    refine ⟨⟨p.count, c, s.take (s.length - mid.length)⟩ :: entries, ?_, ?_, ?_, ?_, ?_, ?_⟩
    · rw [Outline.entriesFrom, if_neg (by omega)]
      simp only [hc, ← hcount, hentries]
    · rw [hconstants, Pool.appendConstant_constants, List.map_cons, List.append_assoc,
        List.singleton_append]
    · exact (hfirst.mapM_cons hrewritten).congr (by rw [List.forall_mem_cons])
    · omega
    · unfold Constant.width at hcount
      split at hcount <;> omega
    · rw [List.forall_mem_cons]
      simp only
      unfold Constant.width at hcount
      by_cases hwide : c.isWide
      · rw [if_pos hwide] at hcount
        by_cases hlast : p.count + 1 < declared
        · rw [show max p.count declared = max (p.appendConstant c).count declared by omega, hfit]
          exact ⟨fun hrest => ⟨fun _ => hlast, hrest⟩, And.right⟩
        · exact ⟨fun heq => by omega, fun hall => absurd (hall.1 hwide) hlast⟩
      · rw [if_neg hwide] at hcount
        rw [show max p.count declared = max (p.appendConstant c).count declared by omega, hfit]
        exact ⟨fun hrest => ⟨fun hw => absurd hw hwide, hrest⟩, And.right⟩

/-- The constant pool is written as it was read exactly if it stands in its one form. -/
theorem pool_rewrites {q : Pool} (h : pool s = .ok (q, rest)) :
    ∃ declared entries mid, u2 s = .ok (declared, mid) ∧
      Outline.entriesFrom 1 declared.toNat mid = .ok (entries, rest) ∧
      q.constants = entries.map (fun e => (e.slot, e.constant)) ∧
      Rewritten s rest q.write (Outline.PoolCanonical declared entries) := by
  obtain ⟨declared, mid, hdeclared, h⟩ := bind_eq_ok.1 h
  have hempty : Pool.empty.count = 1 := rfl
  obtain ⟨entries, hentries, hconstants, ⟨used, out, hused, hout, hrewrites⟩, hge, hle, hfit⟩ :=
    entriesFrom_of_constants h (by rw [hempty])
  rw [hempty] at hentries hge hle hfit
  have hconstants : q.constants = entries.map (fun e => (e.slot, e.constant)) := hconstants
  refine ⟨declared, entries, mid, hdeclared, hentries, hconstants,
    bytesOfU2 declared ++ used, bytesOfU2 (UInt16.ofNat q.count) ++ out, ?_, ?_,
    ((u2_rewrites _ _).append hrewrites).congr ?_⟩
  · rw [u2_exact hdeclared, hused, List.append_assoc]
  · obtain ⟨outs, houts, rfl⟩ := Interpose.map_eq_ok.1 hout
    rw [Pool.write, hconstants, List.mapM_map]
    exact Interpose.bind_eq_ok.2 ⟨outs, houts, rfl⟩
  · have hlt := declared.toNat_lt
    have hcount : UInt16.ofNat q.count = declared ↔ 0 < declared ∧ q.count = max 1 declared.toNat := by
      rw [← UInt16.toNat_inj, UInt16.toNat_ofNat', UInt16.lt_iff_toNat_lt, UInt16.toNat_zero]
      omega
    rw [hcount, hfit]
    exact ⟨fun ⟨⟨hpos, hwide⟩, hshort⟩ => ⟨hpos, hwide, hshort⟩,
      fun ⟨hpos, hwide, hshort⟩ => ⟨⟨hpos, hwide⟩, hshort⟩⟩

end Reader

/-! ## Attributes -/

/-- The attribute names itself through the lowest slot that holds its name. -/
def Pool.Lowest (p : Pool) (n : AttributeName) : Prop :=
  ∀ i, (i, .utf8 n.text) ∈ p.constants → n.slot.toNat ≤ i

theorem Pool.slot_of_getUtf8 {p : Pool} {slot : UInt16} {text : String}
    (h : p.getUtf8 slot = .ok text) : (slot.toNat, .utf8 text) ∈ p.constants := by
  rw [Pool.mem_constants]
  obtain ⟨c, hc, htext⟩ := bind_eq_ok.1 h
  unfold Pool.get at hc
  split at hc
  · cases hc
  split at hc
  case h_1 c' hslot =>
    cases hc
    split at htext
    · cases htext
      exact hslot
    · cases htext
  · cases hc

theorem lowestSlot_le {slots : Array (Option Constant)} {c : Constant} {i : Nat}
    (h : slots[i]? = some (some c)) :
    ∃ m ≤ i, lowestSlot slots c = some m ∧ slots[m]? = some (some c) ∧
      ∀ j, slots[j]? = some (some c) → m ≤ j := by
  have hmem : ∃ x, x ∈ slots ∧ (x == some c) = true :=
    ⟨some c, Array.mem_of_getElem? h, beq_self_eq_true _⟩
  have hfound := Array.findIdx?_eq_some_of_exists hmem
  obtain ⟨hsize, hm, hbelow⟩ := Array.findIdx?_eq_some_iff_getElem.1 hfound
  have hlowest (j : Nat) (hj : slots[j]? = some (some c)) : slots.findIdx (· == some c) ≤ j := by
    obtain ⟨hj, hslot⟩ := Array.getElem?_eq_some_iff.1 hj
    refine Nat.le_of_not_lt fun hlt => hbelow j hlt ?_
    rw [hslot, beq_self_eq_true]
  exact ⟨_, hlowest i h, hfound, Array.getElem?_eq_some_iff.2 ⟨hsize, eq_of_beq hm⟩, hlowest⟩

/-- A name that could be read can be written, through the lowest slot that holds it. -/
theorem attributeNameSlot_rewrites {p : Pool} {slot : UInt16} {text : String}
    (h : p.getUtf8 slot = .ok text) :
    ∃ found, attributeNameSlot p text = .ok found ∧ (found = slot ↔ p.Lowest ⟨slot, text⟩) := by
  have hlt := slot.toNat_lt
  obtain ⟨m, hle, hfound, hm, hlowest⟩ :=
    lowestSlot_le (Pool.mem_constants.1 (Pool.slot_of_getUtf8 h))
  refine ⟨UInt16.ofNat m, ?_, ?_⟩
  · rw [attributeNameSlot, Pool.findUtf8_eq, hfound]
    rfl
  · rw [← UInt16.toNat_inj, UInt16.toNat_ofNat', Nat.mod_eq_of_lt (by omega)]
    constructor
    · rintro heq i hi
      exact heq ▸ hlowest i (Pool.mem_constants.1 hi)
    · intro hslot
      exact Nat.le_antisymm hle (hslot m (Pool.mem_constants.2 hm))

theorem framedAttribute_length (name : UInt16) (body : Bytes) :
    (framedAttribute name body).length = body.length + 6 := by
  simp [framedAttribute, bytesOfU2, bytesOfU4]

/-- An attribute whose body is rewritten is rewritten, if its name has the lowest slot too. -/
theorem framedAttribute_rewrites {slot found : UInt16} {length : UInt32} {info out : Bytes}
    {P Q : Prop} (hslot : found = slot ↔ P) (hlength : info.length = length.toNat)
    (h : Rewrites info out Q) :
    Rewrites (bytesOfU2 slot ++ bytesOfU4 length ++ info) (framedAttribute found out) (P ∧ Q) := by
  refine (((Reader.u2_rewrites _ _).append (Reader.u4_rewrites _ _)).append h).congr ?_
  rw [hslot]
  constructor
  · rintro ⟨⟨hP, -⟩, hQ⟩
    exact ⟨hP, hQ⟩
  · rintro ⟨hP, hQ⟩
    rw [h.eq_iff.2 hQ, hlength, UInt32.ofNat_toNat]
    exact ⟨⟨hP, rfl⟩, hQ⟩

theorem writeAll_eq_mapM (p : Pool) (attributes : List Attribute) :
    Attribute.writeAll p attributes = (attributes.mapM (Attribute.write p)).map List.flatten := by
  induction attributes with
  | nil =>
    rw [Attribute.writeAll]
    rfl
  | cons a rest ih =>
    rw [Attribute.writeAll, ih, List.mapM_cons]
    cases a.write p with
    | error e => rfl
    | ok first => cases rest.mapM (Attribute.write p) <;> rfl

def writeParts {α : Type} (write : α → Except FormatError Bytes) (as : List α) :
    Except FormatError Bytes := do
  let parts ← as.mapM write
  return bytesOfU2 (UInt16.ofNat as.length) ++ parts.flatten

theorem writeAttributes_eq (p : Pool) (attributes : List Attribute) :
    writeAttributes p attributes = writeParts (Attribute.write p) attributes := by
  rw [writeAttributes, writeAll_eq_mapM, writeParts]
  cases attributes.mapM (Attribute.write p) <;> rfl

namespace Reader

variable {s rest : Bytes} {α : Type} {p : Pool}

/--
A reader of parts with attributes, a reader of the names of these attributes, and a writer: whatever
is read can be written, and is written as it was read exactly if the names have the lowest slots.
-/
def KeepsNames (p : Pool) (r : Reader α) (names : Reader (List AttributeName))
    (write : α → Except FormatError Bytes) : Prop :=
  ∀ ⦃s a rest⦄, r s = .ok (a, rest) → ∃ found, names s = .ok (found, rest) ∧
    Rewritten s rest (write a) (∀ n ∈ found, p.Lowest n)

variable {r : Reader α} {names : Reader (List AttributeName)}
  {write : α → Except FormatError Bytes}

theorem KeepsNames.many (h : KeepsNames p r names write) {n : Nat} {as : List α}
    (hread : many n r s = .ok (as, rest)) :
    ∃ found, many n names s = .ok (found, rest) ∧
      Rewritten s rest ((as.mapM write).map List.flatten) (∀ n ∈ found.flatten, p.Lowest n) := by
  induction n generalizing s as with
  | zero =>
    obtain ⟨rfl, rfl⟩ := many_zero.1 hread
    exact ⟨[], many_zero.2 ⟨rfl, rfl⟩, [], [], rfl, rfl, .congr .rfl (by simp)⟩
  | succ n ih =>
    obtain ⟨a, mid, as, ha, has, rfl⟩ := many_succ.1 hread
    obtain ⟨first, hfirst, hrewritten⟩ := h ha
    obtain ⟨others, hothers, hrewrittens⟩ := ih has
    refine ⟨first :: others, many_succ.2 ⟨_, _, _, hfirst, hothers, rfl⟩,
      (hrewritten.mapM_cons hrewrittens).congr ?_⟩
    rw [List.flatten_cons, List.forall_mem_append]

/-- Parts behind their number, and the names in all of them. -/
theorem KeepsNames.counted (h : KeepsNames p r names write) :
    KeepsNames p (counted r) (List.flatten <$> counted names) (writeParts write) := by
  intro s as rest hread
  obtain ⟨n, mid, hn, hread⟩ := counted_eq_ok.1 hread
  obtain ⟨found, hfound, used, out, rfl, hout, hrewrites⟩ := h.many hread
  obtain ⟨outs, houts, rfl⟩ := Interpose.map_eq_ok.1 hout
  refine ⟨found.flatten, ?_, bytesOfU2 n ++ used, bytesOfU2 n ++ outs.flatten, ?_, ?_, ?_⟩
  · exact map_eq_ok.2 ⟨found, counted_eq_ok.2 ⟨n, _, hn, hfound⟩, rfl⟩
  · rw [u2_exact hn, List.append_assoc]
  · rw [writeParts, many_length hread, UInt16.ofNat_toNat]
    exact Interpose.bind_eq_ok.2 ⟨outs, houts, rfl⟩
  · exact (Rewrites.rfl.append hrewrites).congr (iff_of_eq (true_and _))

/-- The body of a code attribute, if its attributes keep their names. -/
theorem KeepsNames.code {r : Reader Attribute} (h : KeepsNames p r names (Attribute.write p)) :
    KeepsNames p (codeOf r) (Outline.codeNames names) (CodeAttribute.write p) := by
  intro s body rest hread
  obtain ⟨maxStack, s₁, hstack, hread⟩ := bind_eq_ok.1 hread
  obtain ⟨maxLocals, s₂, hlocals, hread⟩ := bind_eq_ok.1 hread
  obtain ⟨length, s₃, hlength, hread⟩ := bind_eq_ok.1 hread
  obtain ⟨code, s₄, hcode, hread⟩ := bind_eq_ok.1 hread
  obtain ⟨exceptions, s₅, hexceptions, hread⟩ := bind_eq_ok.1 hread
  obtain ⟨attributes, s₆, hattributes, hread⟩ := bind_eq_ok.1 hread
  obtain ⟨rfl, rfl⟩ := pure_eq_ok.1 hread
  obtain ⟨found, hfound, used, out, hused, hout, hrewrites⟩ := h.counted hattributes
  obtain ⟨groups, hgroups, rfl⟩ := map_eq_ok.1 hfound
  obtain ⟨hlen, hs₃⟩ := take_eq_ok.1 hcode
  refine ⟨groups.flatten, ?_, ?_⟩
  · exact bind_eq_ok.2 ⟨_, _, hstack, bind_eq_ok.2 ⟨_, _, hlocals, bind_eq_ok.2 ⟨_, _, hlength,
      bind_eq_ok.2 ⟨_, _, hcode, bind_eq_ok.2 ⟨_, _, hexceptions, bind_eq_ok.2 ⟨_, _, hgroups,
        pure_eq_ok.2 ⟨rfl, rfl⟩⟩⟩⟩⟩⟩⟩
  · let front := bytesOfU2 maxStack ++ bytesOfU2 maxLocals ++ (bytesOfU4 length ++ code)
      ++ writeCounted ExceptionEntry.write exceptions
    refine ⟨front ++ used, front ++ out, ?_, ?_, (Rewrites.rfl.append hrewrites).congr
      (iff_of_eq (true_and _))⟩
    · rw [u2_exact hstack, u2_exact hlocals, u4_exact hlength, hs₃,
        exceptionEntry_exact.counted hexceptions, hused]
      simp only [front, List.append_assoc]
    · rw [← writeAttributes_eq] at hout
      obtain ⟨inner, hinner, hout⟩ := Interpose.bind_eq_ok.1 hout
      cases hout
      rw [CodeAttribute.write]
      refine Interpose.bind_eq_ok.2 ⟨inner, hinner, ?_⟩
      rw [hlen, UInt32.ofNat_toNat]
      simp only [front, List.append_assoc]
      rfl

/-- The body of an attribute that is no code is written as it was read. -/
theorem attributeBody_exact {name : String} {code : Reader CodeAttribute} {a : Attribute}
    (hname : name ≠ "Code") (h : attributeBody name code s = .ok (a, rest)) :
    a.name = name ∧ ∃ out, a.writeBody p = .ok out ∧ s = out ++ rest := by
  have of_exact {β : Type} {item : Reader β} {w : β → Bytes} {make : β → Attribute}
      (hexact : Exact item w) (hmake : ∀ v, (make v).name = name)
      (hbody : ∀ v, (make v).writeBody p = .ok (w v))
      (h : (do return make (← item) : Reader Attribute) s = .ok (a, rest)) :
      a.name = name ∧ ∃ out, a.writeBody p = .ok out ∧ s = out ++ rest := by
    obtain ⟨v, s₁, hv, h⟩ := bind_eq_ok.1 h
    obtain ⟨rfl, rfl⟩ := pure_eq_ok.1 h
    exact ⟨hmake v, w v, hbody v, hexact hv⟩
  unfold attributeBody at h
  split at h
  case h_1 => exact absurd rfl hname
  case h_2 =>
    exact of_exact stackMapFrame_exact.counted (fun _ => rfl)
      (fun _ => by rw [Attribute.writeBody]) h
  case h_3 => exact of_exact u2_exact.counted (fun _ => rfl) (fun _ => by rw [Attribute.writeBody]; rfl) h
  case h_4 => exact of_exact u2_exact (fun _ => rfl) (fun _ => by rw [Attribute.writeBody]) h
  case h_5 =>
    exact of_exact lineEntry_exact.counted (fun _ => rfl) (fun _ => by rw [Attribute.writeBody]) h
  case h_6 | h_7 =>
    exact of_exact localEntry_exact.counted (fun _ => rfl) (fun _ => by rw [Attribute.writeBody]) h
  case h_8 | h_9 =>
    exact of_exact annotations_exact (fun _ => rfl) (fun _ => by rw [Attribute.writeBody]) h
  case h_10 =>
    cases h
    exact ⟨rfl, s, by rw [Attribute.writeBody], (List.append_nil s).symm⟩

theorem attributeBody_code {code : Reader CodeAttribute} {a : Attribute}
    (h : attributeBody "Code" code s = .ok (a, rest)) :
    ∃ body, code s = .ok (body, rest) ∧ a = .code body := by
  obtain ⟨body, s₁, hbody, h⟩ := bind_eq_ok.1 h
  obtain ⟨rfl, rfl⟩ := pure_eq_ok.1 h
  exact ⟨body, hbody, rfl⟩

/-- Attributes of every depth keep their names. -/
theorem oneAttribute_rewrites (p : Pool) (depth : Nat) :
    KeepsNames p (oneAttribute p depth) (Outline.attributeNames p depth) (Attribute.write p) := by
  induction depth with
  | zero => exact fun _ _ _ h => absurd h fail_ne_ok
  | succ depth ih =>
    intro s a rest h
    obtain ⟨slot, s₁, hslot, h₁⟩ := bind_eq_ok.1 h
    obtain ⟨length, s₂, hlength, h₂⟩ := bind_eq_ok.1 h₁
    obtain ⟨name, s₃, htext, h₃⟩ := bind_eq_ok.1 h₂
    obtain ⟨info, s₄, hinfo, h₄⟩ := bind_eq_ok.1 h₃
    obtain ⟨⟨a', unread⟩, s₅, hlift, h₅⟩ := bind_eq_ok.1 h₄
    obtain ⟨hname, rfl⟩ := lift_eq_ok.1 htext
    obtain ⟨hbody, rfl⟩ := lift_eq_ok.1 hlift
    obtain ⟨hlen, hs₂⟩ := take_eq_ok.1 hinfo
    simp only at h₅
    split at h₅
    case isFalse => exact absurd h₅ fail_ne_ok
    case isTrue hunread =>
    obtain ⟨rfl, rfl⟩ := pure_eq_ok.1 h₅
    obtain rfl := List.isEmpty_iff.1 hunread
    have hs : s = (bytesOfU2 slot ++ bytesOfU4 length ++ info) ++ s₄ := by
      rw [u2_exact hslot, u4_exact hlength, hs₂]
      simp only [List.append_assoc]
    obtain ⟨found, hfound, hlowest⟩ := attributeNameSlot_rewrites hname
    -- what is left is the body: the names inside it, and how it is written again
    suffices hrest : ∃ inner, a'.name = name ∧
        (if name = "Code" then do
            let names ← Outline.codeNames (Outline.attributeNames p depth) info
            return ⟨slot, name⟩ :: names.1
          else return [⟨slot, name⟩] : Reader (List AttributeName)) s₄
          = .ok (⟨slot, name⟩ :: inner, s₄) ∧
        Rewritten info [] (a'.writeBody p) (∀ n ∈ inner, p.Lowest n) by
      obtain ⟨inner, hname', hinner, used, out, hused, hout, hrewrites⟩ := hrest
      rw [List.append_nil] at hused
      subst hused
      refine ⟨⟨slot, name⟩ :: inner, ?_, _, framedAttribute found out, hs, ?_,
        (framedAttribute_rewrites hlowest hlen hrewrites).congr (by rw [List.forall_mem_cons])⟩
      · exact bind_eq_ok.2 ⟨_, _, hslot, bind_eq_ok.2 ⟨_, _, hlength, bind_eq_ok.2 ⟨_, _, htext,
          bind_eq_ok.2 ⟨_, _, hinfo, hinner⟩⟩⟩⟩
      · rw [Attribute.write, hname']
        exact Interpose.bind_eq_ok.2 ⟨found, hfound, Interpose.bind_eq_ok.2 ⟨out, hout, rfl⟩⟩
    by_cases hcode : name = "Code"
    · subst hcode
      obtain ⟨body, hread, rfl⟩ := attributeBody_code hbody
      obtain ⟨inner, hinner, hrewritten⟩ := ih.code hread
      refine ⟨inner, rfl, ?_, by rwa [Attribute.writeBody]⟩
      rw [if_pos rfl]
      exact bind_eq_ok.2 ⟨(inner, []), s₄, lift_eq_ok.2 ⟨hinner, rfl⟩, rfl⟩
    · obtain ⟨hname', out, hout, hinfo'⟩ := attributeBody_exact hcode hbody
      exact ⟨[], hname', by rw [if_neg hcode]; rfl, out, out, hinfo', hout,
        .congr .rfl (by simp)⟩

theorem attributes_rewrites (p : Pool) :
    KeepsNames p (attributes p) (Outline.attributesNames p) (writeAttributes p) := by
  intro s as rest h
  obtain ⟨found, hfound, hrewritten⟩ := (oneAttribute_rewrites p (s.length + 1)).counted h
  exact ⟨found, hfound, by rwa [writeAttributes_eq]⟩

theorem member_rewrites (p : Pool) :
    KeepsNames p (member p) (Outline.memberNames p) (Member.write p) := by
  intro s m rest h
  obtain ⟨access, s₁, haccess, h⟩ := bind_eq_ok.1 h
  obtain ⟨name, s₂, hname, h⟩ := bind_eq_ok.1 h
  obtain ⟨descriptor, s₃, hdescriptor, h⟩ := bind_eq_ok.1 h
  obtain ⟨attributes, s₄, hattributes, h⟩ := bind_eq_ok.1 h
  obtain ⟨rfl, rfl⟩ := pure_eq_ok.1 h
  obtain ⟨found, hfound, used, out, hused, hout, hrewrites⟩ := attributes_rewrites p hattributes
  let front := bytesOfU2 access ++ bytesOfU2 name ++ bytesOfU2 descriptor
  refine ⟨found, ?_, front ++ used, front ++ out, ?_, ?_,
    (Rewrites.rfl.append hrewrites).congr (iff_of_eq (true_and _))⟩
  · exact bind_eq_ok.2 ⟨_, _, haccess, bind_eq_ok.2 ⟨_, _, hname, bind_eq_ok.2 ⟨_, _, hdescriptor,
      hfound⟩⟩⟩
  · rw [u2_exact haccess, u2_exact hname, u2_exact hdescriptor, hused]
    simp only [front, List.append_assoc]
  · exact Interpose.bind_eq_ok.2 ⟨out, hout, rfl⟩

theorem members_rewrites (p : Pool) :
    KeepsNames p (counted (member p)) (Outline.membersNames p) (writeMembers p) :=
  (member_rewrites p).counted

end Reader

/-! ## The whole file -/

/-- The pool has its lowest slots where the outline has its lowest constants. -/
theorem lowest_iff {p : Pool} {entries : List PoolEntry}
    (h : p.constants = entries.map fun e => (e.slot, e.constant)) (n : AttributeName) :
    p.Lowest n ↔ Outline.Lowest entries n := by
  simp only [Pool.Lowest, Outline.Lowest, h, List.mem_map, Prod.mk.injEq]
  constructor
  · intro hp e he hc
    exact hp e.slot ⟨e, he, rfl, hc⟩
  · rintro hentries i ⟨e, he, rfl, hc⟩
    exact hentries e he hc

theorem Reader.classFile_rewrites {s rest : Bytes} {c : ClassFile}
    (h : Reader.classFile s = .ok (c, rest)) :
    ∃ declared entries names, Outline.parts c.pool s = .ok ((declared, entries, names), rest) ∧
      Rewritten s rest c.toBytes (Outline.PoolCanonical declared entries ∧
        ∀ n ∈ names, Outline.Lowest entries n) := by
  obtain ⟨magic, s₁, hmagic, h⟩ := bind_eq_ok.1 h
  split at h
  · cases h
  rename_i hmagic'
  rw [bne_iff_ne, ne_eq, not_not] at hmagic'
  subst hmagic'
  obtain ⟨minorVersion, s₂, hminor, h⟩ := bind_eq_ok.1 h
  obtain ⟨majorVersion, s₃, hmajor, h⟩ := bind_eq_ok.1 h
  obtain ⟨p, s₄, hpool, h⟩ := bind_eq_ok.1 h
  obtain ⟨access, s₅, haccess, h⟩ := bind_eq_ok.1 h
  obtain ⟨thisClass, s₆, hthis, h⟩ := bind_eq_ok.1 h
  obtain ⟨superClass, s₇, hsuper, h⟩ := bind_eq_ok.1 h
  obtain ⟨interfaces, s₈, hinterfaces, h⟩ := bind_eq_ok.1 h
  obtain ⟨fields, s₉, hfields, h⟩ := bind_eq_ok.1 h
  obtain ⟨methods, s₁₀, hmethods, h⟩ := bind_eq_ok.1 h
  obtain ⟨attributes, s₁₁, hattributes, h⟩ := bind_eq_ok.1 h
  obtain ⟨rfl, rfl⟩ := pure_eq_ok.1 h
  obtain ⟨declared, entries, mid, hdeclared, hentries, hconstants, hpoolWritten⟩ :=
    pool_rewrites hpool
  obtain ⟨poolUsed, poolOut, hs₃, hpoolOut, hpoolRewrites⟩ := hpoolWritten
  obtain ⟨fieldNames, hfieldNames, fieldsUsed, fieldsOut, hs₈, hfieldsOut, hfieldsRewrites⟩ :=
    members_rewrites p hfields
  obtain ⟨methodNames, hmethodNames, methodsUsed, methodsOut, hs₉, hmethodsOut, hmethodsRewrites⟩ :=
    members_rewrites p hmethods
  obtain ⟨names, hnames, attributesUsed, attributesOut, hs₁₀, hattributesOut, hattributesRewrites⟩ :=
    attributes_rewrites p hattributes
  let front := bytesOfU4 classFileMagic ++ bytesOfU2 minorVersion ++ bytesOfU2 majorVersion
  let middle := bytesOfU2 access ++ bytesOfU2 thisClass ++ bytesOfU2 superClass
    ++ bytesOfU2List interfaces
  refine ⟨declared, entries, fieldNames ++ methodNames ++ names, ?_,
    front ++ (poolUsed ++ (middle ++ (fieldsUsed ++ (methodsUsed ++ attributesUsed)))),
    front ++ (poolOut ++ (middle ++ (fieldsOut ++ (methodsOut ++ attributesOut)))), ?_, ?_,
    (Rewrites.rfl.append (hpoolRewrites.append (Rewrites.rfl.append (hfieldsRewrites.append
      (hmethodsRewrites.append hattributesRewrites))))).congr ?_⟩
  · exact bind_eq_ok.2 ⟨_, _, hmagic, bind_eq_ok.2 ⟨_, _, hminor, bind_eq_ok.2 ⟨_, _, hmajor,
      bind_eq_ok.2 ⟨_, _, hdeclared, bind_eq_ok.2 ⟨_, _, hentries, bind_eq_ok.2 ⟨_, _, haccess,
      bind_eq_ok.2 ⟨_, _, hthis, bind_eq_ok.2 ⟨_, _, hsuper, bind_eq_ok.2 ⟨_, _, hinterfaces,
      bind_eq_ok.2 ⟨_, _, hfieldNames, bind_eq_ok.2 ⟨_, _, hmethodNames, bind_eq_ok.2 ⟨_, _, hnames,
      pure_eq_ok.2 ⟨rfl, rfl⟩⟩⟩⟩⟩⟩⟩⟩⟩⟩⟩⟩⟩
  · rw [u4_exact hmagic, u2_exact hminor, u2_exact hmajor, hs₃, u2_exact haccess, u2_exact hthis,
      u2_exact hsuper, u2_exact.counted hinterfaces, hs₈, hs₉, hs₁₀]
    simp only [front, middle, bytesOfU2List, writeCounted, List.append_assoc]
  · refine Interpose.bind_eq_ok.2 ⟨_, hpoolOut, Interpose.bind_eq_ok.2 ⟨_, hfieldsOut,
      Interpose.bind_eq_ok.2 ⟨_, hmethodsOut, Interpose.bind_eq_ok.2 ⟨_, hattributesOut, ?_⟩⟩⟩⟩
    simp only [front, middle, List.append_assoc]
    rfl
  · simp only [List.forall_mem_append, lowest_iff hconstants, true_and, and_assoc]

/--
A class file that was read is written as it was exactly if it stands in its one form: no bytes follow
it, its constant pool count covers all slots, its texts are in shortest form, and its attributes name
themselves through the lowest slots with their names.
-/
theorem ClassFile.toBytes_eq_iff {bytes : Bytes} {c : ClassFile} (h : ClassFile.parse bytes = .ok c) :
    ∃ o, Outline.ofBytes c.pool bytes = .ok o ∧ (c.toBytes = .ok bytes ↔ o.Canonical) := by
  obtain ⟨⟨c', rest⟩, hread, rfl⟩ := map_eq_ok.1 h
  obtain ⟨declared, entries, names, hparts, used, out, rfl, hout, hrewrites⟩ :=
    Reader.classFile_rewrites hread
  refine ⟨⟨declared, entries, names, rest⟩, map_eq_ok.2 ⟨_, hparts, rfl⟩, ?_⟩
  rw [hout, Except.ok.injEq]
  have hle := hrewrites.length_le
  constructor
  · intro heq
    have hlen := congrArg List.length heq
    rw [List.length_append] at hlen
    have hrest : rest = [] := List.length_eq_zero_iff.1 (by omega)
    rw [hrest, List.append_nil] at heq
    obtain ⟨hpool, hnames⟩ := hrewrites.eq_iff.1 heq
    exact ⟨hrest, hpool, hnames⟩
  · rintro ⟨hrest, hpool, hnames⟩
    rw [hrewrites.eq_iff.2 ⟨hpool, hnames⟩, show rest = [] from hrest, List.append_nil]

/-- A class with one attribute, whose name, a NUL, stands at slots 3 and 4 of the pool. -/
def taggedClass (slot : UInt8) : Bytes :=
  [0xCA, 0xFE, 0xBA, 0xBE, 0, 0, 0, 0x31, 0, 5,
    1, 0, 1, 0x41, 7, 0, 1, 1, 0, 2, 0xC0, 0x80, 1, 0, 2, 0xC0, 0x80,
    0, 0x21, 0, 2, 0, 0, 0, 0, 0, 0, 0, 0, 0, 1, 0, slot, 0, 0, 0, 1, 7]

/-- Whether an attribute of the outline could name itself through a lower constant. -/
def Outline.hasLowerName (o : Outline) : Bool :=
  o.names.any fun n => o.entries.any fun e => e.constant == .utf8 n.text && e.slot < n.slot.toNat

theorem ClassFile.toBytes_ne_of_higher_name :
    ∃ c, ClassFile.parse (taggedClass 4) = .ok c ∧ c.toBytes ≠ .ok (taggedClass 4) := by
  have hread : (ClassFile.parse (taggedClass 4)).toOption.any (fun c =>
      (Outline.ofBytes c.pool (taggedClass 4)).toOption.any Outline.hasLowerName) := by
    decide +kernel
  obtain ⟨c, hc, hlower⟩ := any_toOption.1 hread
  obtain ⟨o, ho, hlower⟩ := any_toOption.1 hlower
  refine ⟨c, hc, fun hwritten => ?_⟩
  obtain ⟨o', ho', hiff⟩ := ClassFile.toBytes_eq_iff hc
  obtain rfl : o = o' := Except.ok.inj (ho.symm.trans ho')
  obtain ⟨n, hn, hlower⟩ := List.any_eq_true.1 hlower
  obtain ⟨e, he, hlower⟩ := List.any_eq_true.1 hlower
  rw [Bool.and_eq_true, beq_iff_eq, decide_eq_true_eq] at hlower
  have := (hiff.1 hwritten).names n hn e he hlower.1
  omega

end Interpose
