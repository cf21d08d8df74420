import Interpose.Proofs.ClassFile.Lossless
import Interpose.Proofs.ClassFile.Format
/-!
# Reading what was written

`Reads r a out` says that a reader takes exactly the bytes `out`, whatever follows them, and makes the
value `a` of them. Readers are put together with `bind`, and so are the bytes they take; every part of
the format is read from the bytes that its writer gives.

Results:
* `pool_reads`: the constant pool, slot by slot.
* `elementValue_reads`, `oneAttribute_reads`: annotation values and attributes, at every depth.
* `ClassFile.parse_toBytes`: the whole file.
-/

namespace Interpose

namespace Reader

/-- The reader takes exactly the given bytes, whatever follows, and gives the value. -/
def Reads {α : Type} (r : Reader α) (a : α) (out : Bytes) : Prop :=
  ∀ rest, r (out ++ rest) = .ok (a, rest)

variable {α β : Type} {r : Reader α} {a : α} {b : β} {out out' : Bytes}

theorem Reads.pure (a : α) : Reads (pure a) a [] :=
  fun _ => rfl

theorem Reads.bind {f : α → Reader β} (h : Reads r a out) (h' : Reads (f a) b out') :
    Reads (r >>= f) b (out ++ out') := by
  intro rest
  rw [List.append_assoc]
  exact bind_eq_ok.2 ⟨a, _, h _, h' rest⟩

/-- The last reader of several, whose value is put together with the others. -/
theorem Reads.last (h : Reads r a out) (f : α → β) :
    Reads (r >>= fun x => Pure.pure (f x)) (f a) out := by
  have hread : Reads (r >>= fun x => Pure.pure (f x)) (f a) (out ++ []) := h.bind (.pure _)
  rwa [List.append_nil] at hread

theorem Reads.lift {x : Except FormatError α} (h : x = .ok a) : Reads (liftM x) a [] :=
  fun _ => lift_eq_ok.2 ⟨h, rfl⟩

theorem u1_reads (v : UInt8) : Reads u1 v [v] :=
  fun _ => rfl

theorem u2_reads (v : UInt16) : Reads u2 v (bytesOfU2 v) :=
  u2_bytesOfU2 v

theorem u4_reads (v : UInt32) : Reads u4 v (bytesOfU4 v) :=
  u4_bytesOfU4 v

theorem u8_reads (v : UInt64) : Reads u8 v (bytesOfU8 v) := by
  have hvalue : UInt64.ofNat ((UInt32.ofNat (v.toNat / 0x100000000)).toNat * 0x100000000
      + (UInt32.ofNat (v.toNat % 0x100000000)).toNat) = v := by
    have := v.toNat_lt
    rw [← UInt64.toNat_inj, UInt64.toNat_ofNat', UInt32.toNat_ofNat', UInt32.toNat_ofNat']
    omega
  refine Reads.bind (u4_reads _) ?_
  have hlow := (u4_reads (UInt32.ofNat (v.toNat % 0x100000000))).last fun low =>
    UInt64.ofNat ((UInt32.ofNat (v.toNat / 0x100000000)).toNat * 0x100000000 + low.toNat)
  rwa [hvalue] at hlow

theorem take_reads (bytes : Bytes) : Reads (take bytes.length) bytes bytes :=
  fun _ => take_eq_ok.2 ⟨rfl, rfl⟩

/-! ## Several values -/

theorem many_reads {as : List α} {outs : List Bytes} (h : List.Forall₂ (Reads r) as outs) :
    Reads (many as.length r) as outs.flatten := by
  induction h with
  | nil => exact fun _ => rfl
  | @cons a out as outs ha _ ih =>
    intro rest
    refine many_succ.2 ⟨a, outs.flatten ++ rest, as, ?_, ih rest, rfl⟩
    rw [List.flatten_cons, List.append_assoc]
    exact ha _

theorem counted_reads {as : List α} {outs : List Bytes} (hcount : Countable as)
    (h : List.Forall₂ (Reads r) as outs) :
    Reads (counted r) as (bytesOfU2 (UInt16.ofNat as.length) ++ outs.flatten) := by
  refine (u2_reads _).bind ?_
  rw [UInt16.toNat_ofNat_of_lt' (by simpa using hcount)]
  exact many_reads h

theorem many_flatMap_reads {write : α → Bytes} {as : List α} (h : ∀ a ∈ as, Reads r a (write a)) :
    Reads (many as.length r) as (as.flatMap write) := by
  rw [List.flatMap_def]
  exact many_reads (List.forall₂_map_right_iff.2 (List.forall₂_same.2 h))

theorem writeCounted_reads {write : α → Bytes} {as : List α} (hcount : Countable as)
    (h : ∀ a ∈ as, Reads r a (write a)) : Reads (counted r) as (writeCounted write as) := by
  rw [writeCounted, List.flatMap_def]
  exact counted_reads hcount (List.forall₂_map_right_iff.2 (List.forall₂_same.2 h))

/-- Parts are read one by one; each is at most as long as all of them. -/
theorem writeParts_reads {write : α → Except FormatError Bytes} {as : List α} (hcount : Countable as)
    (hout : writeParts write as = .ok out)
    (h : ∀ a ∈ as, ∀ part, write a = .ok part → part.length ≤ out.length → Reads r a part) :
    Reads (counted r) as out := by
  obtain ⟨parts, hparts, hout⟩ := Interpose.bind_eq_ok.1 hout
  cases hout
  refine counted_reads hcount (forall₂_imp_of_mem (mapM_eq_ok.1 hparts)
    fun a ha part hpart hwrite => h a ha part hwrite ?_)
  rw [List.length_append]
  exact Nat.le_add_left_of_le (List.sublist_flatten_of_mem hpart).length_le

/-! ## The parts below the attributes -/

theorem verificationType_reads (v : VerificationType) : Reads verificationType v v.write := by
  cases v with
  | object index => exact (u1_reads 7).bind ((u2_reads index).last _)
  | uninitialized offset => exact (u1_reads 8).bind ((u2_reads offset).last _)
  | _ => exact fun _ => rfl

theorem stackMapFrame_reads {f : StackMapFrame} (hf : f.Fits) : Reads stackMapFrame f f.write := by
  -- every form is found by its first byte
  cases f with
  | same delta =>
    have hdelta : delta.toUInt8.toNat = delta.toNat := by
      rw [UInt16.toNat_toUInt8]
      exact Nat.mod_eq_of_lt (Nat.lt_of_le_of_lt hf (by decide))
    have htag : delta.toUInt8 ≤ 63 := by
      rw [UInt8.le_iff_toNat_le, hdelta]
      exact hf
    have hback : delta.toUInt8.toUInt16 = delta := by
      rw [← UInt16.toNat_inj, UInt8.toNat_toUInt16, hdelta]
    change Reads _ _ ([delta.toUInt8] ++ [])
    refine (u1_reads _).bind ?_
    rw [if_pos htag, hback]
    exact .pure _
  | sameStack delta stack =>
    have hf : delta.toNat ≤ 63 := hf
    have htag : (64 + delta.toUInt8).toNat = 64 + delta.toNat := by
      simp only [UInt8.toNat_add, UInt16.toNat_toUInt8, UInt8.reduceToNat]
      omega
    have hback : (64 + delta.toUInt8 - 64).toUInt16 = delta := by
      rw [UInt8.add_comm, UInt8.add_sub_cancel, ← UInt16.toNat_inj, UInt8.toNat_toUInt16,
        UInt16.toNat_toUInt8]
      omega
    refine Reads.bind (u1_reads _) ?_
    simp only [UInt8.le_iff_toNat_le, htag, UInt8.reduceToNat]
    rw [if_neg (by omega), if_pos (by omega), hback]
    exact (verificationType_reads stack).last _
  | sameStackExtended delta stack =>
    exact (u1_reads 247).bind ((u2_reads delta).bind ((verificationType_reads stack).last _))
  | chop delta k =>
    obtain ⟨hk, hk'⟩ : 1 ≤ k.toNat ∧ k.toNat ≤ 3 := hf
    have htag : (251 - k).toNat = 251 - k.toNat := by
      rw [UInt8.toNat_sub_of_le _ _ (UInt8.le_iff_toNat_le.2 (Nat.le_trans hk' (by decide)))]
      rfl
    have hback : 251 - (251 - k) = k := by grind
    refine Reads.bind (u1_reads _) ?_
    simp only [UInt8.le_iff_toNat_le, UInt8.lt_iff_toNat_lt, ← UInt8.toNat_inj, htag,
      UInt8.reduceToNat]
    rw [if_neg (by omega), if_neg (by omega), if_neg (by omega), if_neg (by omega),
      if_pos (by omega), hback]
    exact (u2_reads delta).last _
  | sameExtended delta => exact (u1_reads 251).bind ((u2_reads delta).last _)
  | append delta locals =>
    obtain ⟨hl, hl'⟩ : 1 ≤ locals.length ∧ locals.length ≤ 3 := hf
    have htag : (251 + UInt8.ofNat locals.length).toNat = 251 + locals.length := by
      simp only [UInt8.toNat_add, UInt8.toNat_ofNat', UInt8.reduceToNat]
      omega
    rw [StackMapFrame.write, List.cons_append]
    refine Reads.bind (u1_reads _) ?_
    simp only [UInt8.le_iff_toNat_le, UInt8.lt_iff_toNat_lt, ← UInt8.toNat_inj, htag,
      UInt8.reduceToNat]
    rw [if_neg (by omega), if_neg (by omega), if_neg (by omega), if_neg (by omega),
      if_neg (by omega), if_neg (by omega), if_pos (by omega), Nat.add_sub_cancel_left]
    exact (u2_reads delta).bind
      ((many_flatMap_reads fun v _ => verificationType_reads v).last _)
  | full delta locals stack =>
    obtain ⟨hlocals, hstack⟩ := hf
    simp only [StackMapFrame.write, List.append_assoc]
    exact (u1_reads 255).bind ((u2_reads delta).bind
      ((writeCounted_reads hlocals fun v _ => verificationType_reads v).bind
        ((writeCounted_reads hstack fun v _ => verificationType_reads v).last _)))

theorem lineEntry_reads (e : LineEntry) : Reads lineEntry e e.write :=
  (u2_reads _).bind ((u2_reads _).last _)

theorem localEntry_reads (e : LocalEntry) : Reads localEntry e e.write := by
  simp only [LocalEntry.write, List.append_assoc]
  exact (u2_reads _).bind ((u2_reads _).bind ((u2_reads _).bind ((u2_reads _).bind
    ((u2_reads _).last _))))

theorem exceptionEntry_reads (e : ExceptionEntry) : Reads exceptionEntry e e.write := by
  simp only [ExceptionEntry.write, List.append_assoc]
  exact (u2_reads _).bind ((u2_reads _).bind ((u2_reads _).bind ((u2_reads _).last _)))

theorem annotationOf_reads {element : Reader ElementValue} {a : AnnotationEntry}
    (hcount : Countable a.pairs) (h : ∀ pair ∈ a.pairs, Reads element pair.2 pair.2.write) :
    Reads (annotationOf element) a a.write := by
  rw [AnnotationEntry.write, writePairs_eq, List.append_assoc]
  refine (u2_reads _).bind ((writeCounted_reads hcount fun pair hpair => ?_).last _)
  exact (u2_reads _).bind ((h pair hpair).last _)

theorem length_le_flatMap {write : α → Bytes} {as : List α} (ha : a ∈ as) :
    (write a).length ≤ (as.flatMap write).length := by
  rw [List.flatMap_def]
  exact (List.sublist_flatten_of_mem (List.mem_map_of_mem ha)).length_le

/-- Values of every depth are read from what is written of them. -/
theorem elementValue_reads (depth : Nat) {v : ElementValue} (hv : v.Fits)
    (hdepth : v.write.length ≤ depth) : Reads (elementValue depth) v v.write := by
  induction depth generalizing v with
  | zero =>
    cases hv <;> simp [ElementValue.write] at hdepth
  | succ depth ih =>
    cases hv with
    | @const tag index htag =>
      refine Reads.bind (u1_reads tag) ?_
      rw [if_pos htag]
      exact (u2_reads index).last _
    | enumConst => exact (u1_reads _).bind ((u2_reads _).bind ((u2_reads _).last _))
    | classInfo => exact (u1_reads _).bind ((u2_reads _).last _)
    | @nested type pairs hcount hvalues =>
      have hpair (pair) (hmem : pair ∈ pairs) : pair.2.write.length ≤ depth := by
        have hle : (writePair pair).length ≤ (pairs.flatMap writePair).length := length_le_flatMap hmem
        simp only [ElementValue.write, writePairs_eq, List.length_append, List.length_cons,
          writePair] at hdepth hle
        omega
      have ha : Reads (annotationOf (elementValue depth)) ⟨type, pairs⟩
          (AnnotationEntry.write ⟨type, pairs⟩) :=
        annotationOf_reads hcount fun pair hmem => ih (hvalues pair hmem) (hpair pair hmem)
      exact (u1_reads _).bind (ha.last fun a => ElementValue.nested a.type a.pairs)
    | @array values hcount heach =>
      have hvalue (v) (hmem : v ∈ values) : v.write.length ≤ depth := by
        have hle : v.write.length ≤ (values.flatMap ElementValue.write).length := length_le_flatMap hmem
        simp only [ElementValue.write, writeAll_eq, List.length_append, List.length_cons] at hdepth
        omega
      have hread : Reads (counted (elementValue depth)) values
          (writeCounted ElementValue.write values) :=
        writeCounted_reads hcount fun v hmem => ih (heach v hmem) (hvalue v hmem)
      rw [ElementValue.write, writeAll_eq]
      exact (u1_reads _).bind (hread.last _)

theorem annotations_reads {as : List AnnotationEntry} (hcount : Countable as)
    (h : ∀ a ∈ as, a.Fits) : Reads annotations as (writeCounted AnnotationEntry.write as) := by
  intro rest
  refine writeCounted_reads hcount (fun a ha => annotationOf_reads (h a ha).count ?_) rest
  intro pair hpair
  refine elementValue_reads _ ((h a ha).values pair hpair) ?_
  have hle : (writePair pair).length ≤ (a.pairs.flatMap writePair).length := length_le_flatMap hpair
  have hle' : a.write.length ≤ (as.flatMap AnnotationEntry.write).length := length_le_flatMap ha
  simp only [AnnotationEntry.write, writePairs_eq, writePair, writeCounted, List.length_append]
    at hle hle' ⊢
  omega

/-! ## The constant pool -/

theorem text_reads {text : String} (h : (ModifiedUtf8.encode text).length < 0x10000) :
    Reads (do
      let length ← u2
      let bytes ← take length.toNat
      return Constant.utf8 (← ModifiedUtf8.decode bytes)) (.utf8 text)
      (bytesOfU2 (UInt16.ofNat (ModifiedUtf8.encode text).length) ++ ModifiedUtf8.encode text) := by
  have hbytes : Reads (do
      let bytes ← take (ModifiedUtf8.encode text).length
      return Constant.utf8 (← ModifiedUtf8.decode bytes)) (.utf8 text)
      (ModifiedUtf8.encode text ++ []) :=
    (take_reads _).bind ((Reads.lift (ModifiedUtf8.decode_encode text)).last _)
  rw [List.append_nil] at hbytes
  refine (u2_reads _).bind ?_
  rwa [UInt16.toNat_ofNat_of_lt' (by simpa using h)]

/-- A constant is read from what is written of it. -/
theorem constant_reads {c : Constant} (h : c.write = .ok out) : Reads constant c out := by
  cases c with
  | utf8 text =>
    rw [Constant.write] at h
    split at h
    case isTrue => cases h
    case isFalse hlength =>
      cases h
      exact (u1_reads 1).bind (text_reads (Nat.lt_succ_of_le (Nat.le_of_not_lt hlength)))
  | integer value =>
    cases h
    have hvalue : Reads (do return Constant.integer (← u4).toInt32) (.integer value) _ :=
      (u4_reads value.toUInt32).last _
    exact (u1_reads 3).bind hvalue
  | float bits => cases h; exact (u1_reads 4).bind ((u4_reads _).last _)
  | long value =>
    cases h
    have hvalue : Reads (do return Constant.long (← u8).toInt64) (.long value) _ :=
      (u8_reads value.toUInt64).last _
    exact (u1_reads 5).bind hvalue
  | double bits => cases h; exact (u1_reads 6).bind ((u8_reads _).last _)
  | classRef => cases h; exact (u1_reads 7).bind ((u2_reads _).last _)
  | stringRef => cases h; exact (u1_reads 8).bind ((u2_reads _).last _)
  | fieldRef => cases h; exact (u1_reads 9).bind ((u2_reads _).bind ((u2_reads _).last _))
  | methodRef => cases h; exact (u1_reads 10).bind ((u2_reads _).bind ((u2_reads _).last _))
  | interfaceMethodRef => cases h; exact (u1_reads 11).bind ((u2_reads _).bind ((u2_reads _).last _))
  | nameAndType => cases h; exact (u1_reads 12).bind ((u2_reads _).bind ((u2_reads _).last _))
  | methodHandle => cases h; exact (u1_reads 15).bind ((u1_reads _).bind ((u2_reads _).last _))
  | methodType => cases h; exact (u1_reads 16).bind ((u2_reads _).last _)
  | dynamic => cases h; exact (u1_reads 17).bind ((u2_reads _).bind ((u2_reads _).last _))
  | invokeDynamic => cases h; exact (u1_reads 18).bind ((u2_reads _).bind ((u2_reads _).last _))
  | moduleRef => cases h; exact (u1_reads 19).bind ((u2_reads _).last _)
  | packageRef => cases h; exact (u1_reads 20).bind ((u2_reads _).last _)

/-- Constants are read behind those of a pool, one after the other. -/
theorem constants_reads {cs : List Constant} {outs : List Bytes}
    (h : List.Forall₂ (fun c out => c.write = .ok out) cs outs) (q : Pool) :
    Reads (constants (cs.map Constant.width).sum q) (cs.foldl Pool.appendConstant q) outs.flatten := by
  induction h generalizing q with
  | nil =>
    intro rest
    rw [constants, List.map_nil, List.sum_nil, if_pos rfl]
    rfl
  | @cons c out cs outs hc _ ih =>
    intro rest
    have hpos : 0 < c.width := by unfold Constant.width; split <;> decide
    rw [constants, List.map_cons, List.sum_cons, if_neg (by omega), List.flatten_cons,
      List.append_assoc, constant_reads hc]
    simp only [Nat.add_sub_cancel_left]
    exact ih (q.appendConstant c) rest

end Reader

/-- The pool that is read has the slots of the one that was written. -/
theorem Reader.pool_reads {p : Pool} {out : Bytes} (hp : p.Regular) (h : p.write = .ok out) :
    ∃ q, q.slots = p.slots ∧ Reads pool q out := by
  obtain ⟨parts, hparts, h⟩ := Interpose.bind_eq_ok.1 h
  cases h
  have hconstants : List.Forall₂ (fun c out => c.write = .ok out) (p.constants.map (·.2)) parts :=
    List.forall₂_map_left_iff.2 (mapM_eq_ok.1 hparts)
  refine ⟨(p.constants.map (·.2)).foldl Pool.appendConstant Pool.empty, ?_, ?_⟩
  · rw [← Array.toList_inj, Pool.foldl_appendConstant_slots, hp.slots_toList]
    rfl
  · refine (u2_reads _).bind ?_
    rw [UInt16.toNat_ofNat_of_lt' (by simpa using hp.count_lt), hp.count_eq, Nat.add_sub_cancel]
    exact constants_reads hconstants Pool.empty

/-! ## Attributes -/

namespace Reader

variable {p q : Pool}

/-- A name that was written is found in the slot that was written. -/
theorem attributeName_reads {name : String} {index : UInt16} (hq : q.Sound)
    (hslots : q.slots = p.slots) (h : attributeNameSlot p name = .ok index) :
    q.getUtf8 index = .ok name := by
  unfold attributeNameSlot at h
  split at h
  case h_2 => cases h
  case h_1 found hfound =>
    cases h
    rw [Pool.findUtf8_eq] at hfound
    obtain ⟨m, hm, rfl⟩ := Option.map_eq_some_iff.1 hfound
    rw [lowestSlot, Array.findIdx?_eq_some_iff_getElem] at hm
    obtain ⟨hsize, hslot, -⟩ := hm
    refine Interpose.bind_eq_ok.2 ⟨.utf8 name, hq.get_of_slot ?_, rfl⟩
    rw [hslots, Array.getElem?_eq_getElem hsize, eq_of_beq hslot]

/-- A code attribute is read from what is written of it if the attributes in it are. -/
theorem codeOf_reads {r : Reader Attribute} {body : CodeAttribute} {out : Bytes}
    (hlists : (Attribute.code body).ListsFit) (hlength : out.length < 0x100000000)
    (h : body.write p = .ok out)
    (hinside : ∀ b ∈ body.attributes, ∀ part, b.write p = .ok part → part.length ≤ out.length →
      Reads r b part) : Reads (codeOf r) body out := by
  obtain ⟨maxStack, maxLocals, code, exceptions, attributes⟩ := body
  obtain ⟨hexceptions, hcount⟩ := hlists
  rw [CodeAttribute.write] at h
  obtain ⟨inner, hinner, h⟩ := Interpose.bind_eq_ok.1 h
  cases h
  have hparts : writeParts (Attribute.write p) attributes
      = .ok (bytesOfU2 (UInt16.ofNat attributes.length) ++ inner) := by
    rw [← writeAttributes_eq]
    exact Interpose.bind_eq_ok.2 ⟨inner, hinner, rfl⟩
  have hcode : code.length < 0x100000000 := by
    simp only [List.length_append] at hlength
    omega
  have hback : (UInt32.ofNat code.length).toNat = code.length :=
    UInt32.toNat_ofNat_of_lt' (by simpa using hcode)
  have hattributes : Reads (counted r) attributes
      (bytesOfU2 (UInt16.ofNat attributes.length) ++ inner) := by
    refine writeParts_reads hcount hparts fun b hb part hpart hle => hinside b hb part hpart ?_
    simp only [List.length_append] at hle ⊢
    omega
  simp only [List.append_assoc]
  refine (u2_reads _).bind ((u2_reads _).bind ((u4_reads _).bind ?_))
  rw [hback]
  exact (take_reads code).bind ((writeCounted_reads hexceptions fun e _ => exceptionEntry_reads e).bind
    (hattributes.last _))

/-- The body of an attribute is read to its end from what is written of it. -/
theorem attributeBody_reads {code : Reader CodeAttribute} {a : Attribute} {out : Bytes}
    (hlists : a.ListsFit) (h : a.writeBody p = .ok out)
    (hcode : ∀ body, a = .code body → Reads code body out) :
    attributeBody a.name code out = .ok (a, []) := by
  have of_reads {β : Type} {item : Reader β} {make : β → Attribute} {v : β} {out : Bytes}
      (hv : Reads item v out) :
      (do return make (← item) : Reader Attribute) out = .ok (make v, []) := by
    have hmake := hv.last make []
    rwa [List.append_nil] at hmake
  cases a with
  | code body => exact of_reads (hcode body rfl)
  | stackMapTable frames =>
    rw [Attribute.writeBody] at h
    cases h
    exact of_reads (writeCounted_reads hlists.1 fun f hf => stackMapFrame_reads (hlists.2 f hf))
  | exceptions classes =>
    rw [Attribute.writeBody] at h
    cases h
    exact of_reads (writeCounted_reads hlists fun i _ => u2_reads i)
  | sourceFile index =>
    rw [Attribute.writeBody] at h
    cases h
    exact of_reads (u2_reads index)
  | lineNumberTable entries =>
    rw [Attribute.writeBody] at h
    cases h
    exact of_reads (writeCounted_reads hlists fun e _ => lineEntry_reads e)
  | localVariableTable entries | localVariableTypeTable entries =>
    rw [Attribute.writeBody] at h
    cases h
    exact of_reads (writeCounted_reads hlists fun e _ => localEntry_reads e)
  | runtimeVisibleAnnotations entries | runtimeInvisibleAnnotations entries =>
    rw [Attribute.writeBody] at h
    cases h
    exact of_reads (annotations_reads hlists.1 hlists.2)
  | unknown name info =>
    rw [Attribute.writeBody] at h
    cases h
    have hname : name ∉ modelledNames := hlists
    simp only [modelledNames, List.mem_cons, List.not_mem_nil, or_false, not_or] at hname
    unfold attributeBody
    rw [Attribute.name]
    split <;> simp_all

/-- Attributes of every depth are read from what is written of them. -/
theorem oneAttribute_reads (hq : q.Sound) (hslots : q.slots = p.slots) (depth : Nat) {a : Attribute}
    {out : Bytes} (ha : a.Throughout (Attribute.Fits p)) (h : a.write p = .ok out)
    (hdepth : out.length ≤ depth) : Reads (oneAttribute q depth) a out := by
  -- on the depth: the attributes inside a code attribute take six bytes less than it
  induction depth generalizing a out with
  | zero =>
    rw [Attribute.write] at h
    obtain ⟨index, hindex, h⟩ := Interpose.bind_eq_ok.1 h
    obtain ⟨body, hbody, h⟩ := Interpose.bind_eq_ok.1 h
    cases h
    rw [framedAttribute_length] at hdepth
    omega
  | succ depth ih =>
    obtain ⟨⟨hlists, hlength⟩, hinside⟩ := ha
    rw [Attribute.write] at h
    obtain ⟨index, hindex, h⟩ := Interpose.bind_eq_ok.1 h
    obtain ⟨body, hbody, h⟩ := Interpose.bind_eq_ok.1 h
    cases h
    rw [framedAttribute_length] at hdepth
    have hread : attributeBody a.name (codeOf (oneAttribute q depth)) body = .ok (a, []) := by
      refine attributeBody_reads hlists hbody fun code hcode => ?_
      subst hcode
      have hcode : code.write p = .ok body := by rwa [Attribute.writeBody] at hbody
      refine codeOf_reads hlists (hlength body hbody) hcode fun b hb part hpart hle => ?_
      exact ih (hinside code rfl b hb) hpart (by omega)
    have hbody' : Reads (do
        let info ← take body.length
        let read ← attributeBody a.name (codeOf (oneAttribute q depth)) info
        if read.2.isEmpty then return read.1 else fail (.invalidAttribute a.name)) a body := by
      intro rest
      refine bind_eq_ok.2 ⟨body, rest, take_reads body rest, ?_⟩
      exact bind_eq_ok.2 ⟨(a, []), rest, lift_eq_ok.2 ⟨hread, rfl⟩, rfl⟩
    have hback : (UInt32.ofNat body.length).toNat = body.length :=
      UInt32.toNat_ofNat_of_lt' (by simpa using hlength body hbody)
    rw [framedAttribute, List.append_assoc]
    refine (u2_reads _).bind ((u4_reads _).bind ?_)
    rw [hback]
    exact (Reads.lift (attributeName_reads hq hslots hindex)).bind hbody'

theorem attributes_reads (hq : q.Sound) (hslots : q.slots = p.slots) {as : List Attribute}
    {out : Bytes} (has : Attribute.AllFit p as) (h : writeAttributes p as = .ok out) :
    Reads (attributes q) as out := by
  rw [writeAttributes_eq] at h
  intro rest
  refine writeParts_reads has.count h (fun a ha part hpart hle => ?_) rest
  refine oneAttribute_reads hq hslots _ (has.each a ha) hpart ?_
  rw [List.length_append]
  omega

/-! ## The whole file -/

theorem member_reads (hq : q.Sound) (hslots : q.slots = p.slots) {m : Member} {out : Bytes}
    (hm : Attribute.AllFit p m.attributes) (h : m.write p = .ok out) : Reads (member q) m out := by
  obtain ⟨parts, hparts, h⟩ := Interpose.bind_eq_ok.1 h
  cases h
  simp only [List.append_assoc]
  exact (u2_reads _).bind ((u2_reads _).bind ((u2_reads _).bind
    ((attributes_reads hq hslots hm hparts).last _)))

theorem members_reads (hq : q.Sound) (hslots : q.slots = p.slots) {ms : List Member} {out : Bytes}
    (hcount : Countable ms) (hms : ∀ m ∈ ms, Attribute.AllFit p m.attributes)
    (h : writeMembers p ms = .ok out) : Reads (counted (member q)) ms out :=
  writeParts_reads hcount h fun m hm _ hpart _ => member_reads hq hslots (hms m hm) hpart

end Reader

namespace ClassFile

/-- What was written of a class file that fits the format is read as that class file again. -/
theorem parse_toBytes {c : ClassFile} {bytes : Bytes} (hfits : c.Fits)
    (hbytes : c.toBytes = .ok bytes) : ∃ c', parse bytes = .ok c' ∧ c.Same c' := by
  obtain ⟨pool, hpool, h⟩ := bind_eq_ok.1 hbytes
  obtain ⟨fields, hfields, h⟩ := bind_eq_ok.1 h
  obtain ⟨methods, hmethods, h⟩ := bind_eq_ok.1 h
  obtain ⟨attributes, hattributes, h⟩ := bind_eq_ok.1 h
  cases h
  obtain ⟨q, hslots, hq⟩ := Reader.pool_reads hfits.pool hpool
  have hsound : q.Sound :=
    ⟨hslots ▸ (hfits.pool.empty_iff 0).2 (.inl rfl), hslots ▸ Nat.le_of_lt hfits.pool.count_lt⟩
  have hread : Reader.Reads Reader.classFile { c with pool := q } _ :=
    (Reader.u4_reads classFileMagic).bind <| (Reader.u2_reads c.minorVersion).bind <|
      (Reader.u2_reads c.majorVersion).bind <| hq.bind <| (Reader.u2_reads c.access).bind <|
      (Reader.u2_reads c.thisClass).bind <| (Reader.u2_reads c.superClass).bind <|
      (Reader.writeCounted_reads hfits.interfaces fun i _ => Reader.u2_reads i).bind <|
      (Reader.members_reads hsound hslots hfits.fields hfits.ofFields hfields).bind <|
      (Reader.members_reads hsound hslots hfits.methods hfits.ofMethods hmethods).bind <|
      (Reader.attributes_reads hsound hslots hfits.attributes hattributes).last _
  refine ⟨{ c with pool := q }, map_eq_ok.2 ⟨({ c with pool := q }, []), ?_, rfl⟩, ⟨hslots, rfl⟩⟩
  have hall := hread []
  simpa only [bytesOfU2List, writeCounted, List.append_assoc, List.append_nil] using hall

/-- Constants for a class with nested parts; slots 4 and 5 are taken by one of them. -/
def nestedPool : Pool :=
  [.utf8 "Code", .utf8 "StackMapTable", .utf8 "RuntimeVisibleAnnotations", .long (-1), .utf8 "A",
    .classRef 6, .utf8 "()V"].foldl Pool.appendConstant Pool.empty

/-- The frames of a method, one in each of the forms with few bits. -/
def nestedFrames : List StackMapFrame :=
  [.same 63, .sameStack 0 (.object 7), .chop 1 3, .append 2 [.top, .integer, .long],
    .full 300 [.uninitialized 2] [.null]]

def nestedCode : CodeAttribute where
  maxStack := 1
  maxLocals := 4
  code := [0, 177]
  exceptions := [⟨0, 1, 1, 7⟩]
  attributes := [.stackMapTable nestedFrames]

def nestedMark : AnnotationEntry :=
  ⟨6, [(6, .array [.nested 6 [(6, .const 74 4)], .enumConst 6 6]), (6, .classInfo 6)]⟩

def nested : ClassFile where
  minorVersion := 0
  majorVersion := 50
  pool := nestedPool
  access := 0x21
  thisClass := 7
  superClass := 0
  interfaces := [7]
  fields := []
  methods := [{ access := 8, name := 6, descriptor := 8, attributes := [.code nestedCode] }]
  attributes := [.runtimeVisibleAnnotations [nestedMark]]

theorem nested_fits : nested.Fits := by
  have hpool : nestedPool.Regular :=
    .of_slots (by decide +kernel) (Pool.foldl_appendConstant_slots _ Pool.empty)
  have hframes : (Attribute.stackMapTable nestedFrames).Fits nestedPool := by
    refine ⟨⟨by decide, by simp [nestedFrames, StackMapFrame.Fits]⟩, fun body hbody => ?_⟩
    rw [Attribute.writeBody] at hbody
    cases hbody
    decide
  have hcode : (Attribute.code nestedCode).Fits nestedPool := by
    refine ⟨⟨by decide, by decide⟩, fun body hbody => ?_⟩
    have hlength : ((Attribute.code nestedCode).writeBody nestedPool).toOption.any
        (·.length < 0x100000000) := by
      simp only [nestedCode, Attribute.writeBody, CodeAttribute.write, Attribute.writeAll,
        Attribute.write]
      decide +kernel
    obtain ⟨body', hbody', hlength⟩ := any_toOption.1 hlength
    cases hbody.symm.trans hbody'
    exact of_decide_eq_true hlength
  have hvalues : nestedMark.Fits := by
    have hinner : (ElementValue.nested 6 [(6, .const 74 4)]).Fits :=
      .nested (by decide) (by simpa using .const (by decide))
    refine ⟨by decide, ?_⟩
    simpa [nestedMark] using
      ⟨.array (by decide) (by simpa using ⟨hinner, .enumConst⟩), .classInfo⟩
  have hannotations : (Attribute.runtimeVisibleAnnotations [nestedMark]).Fits nestedPool := by
    refine ⟨⟨by decide, by simpa using hvalues⟩, fun body hbody => ?_⟩
    rw [Attribute.writeBody] at hbody
    cases hbody
    decide
  refine ⟨hpool, by decide, by decide, by decide, List.forall_mem_nil _, ?_, ⟨by decide, ?_⟩⟩
  · rintro m hm
    obtain rfl := List.mem_singleton.1 hm
    refine ⟨by decide, fun a ha => ?_⟩
    obtain rfl := List.mem_singleton.1 ha
    refine ⟨hcode, fun body hbody b hb => ?_⟩
    cases hbody
    obtain rfl := List.mem_singleton.1 hb
    exact ⟨hframes, fun inner hinner => by cases hinner⟩
  · intro a ha
    obtain rfl := List.mem_singleton.1 ha
    exact ⟨hannotations, fun inner hinner => by cases hinner⟩

theorem parse_toBytes_nested : nested.Fits ∧ ∃ bytes c', nested.toBytes = .ok bytes ∧
    parse bytes = .ok c' ∧ nested.Same c' := by
  have hwritten : nested.toBytes.toOption.any (fun _ => true) := by
    simp only [toBytes, writeMembers, nested, List.mapM_cons, List.mapM_nil, Member.write,
      writeAttributes, nestedCode, Attribute.writeAll, Attribute.write, Attribute.writeBody,
      CodeAttribute.write]
    decide +kernel
  obtain ⟨bytes, hbytes, -⟩ := any_toOption.1 hwritten
  obtain ⟨c', hc', hsame⟩ := parse_toBytes nested_fits hbytes
  exact ⟨nested_fits, bytes, c', hbytes, hc', hsame⟩

end ClassFile

end Interpose
