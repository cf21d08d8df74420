import Interpose.ClassFile.Write
import Interpose.ClassFile.Read
import Interpose.Proofs.Outcome
/-!
# Reading back what is written

What a reader takes off the front of the bytes, and what the writer of the same part makes of the
value again. `Reader.Exact r w` says that `w` gives back the very bytes that `r` took. Where the
writer chooses between several forms of a value, `Rewrites` says when it chooses the one that was
read; a chosen form is never longer than the one that was read, so that equality of a whole comes
down to equality of its parts (`Rewrites.append`).

Results:
* `Reader.bind_eq_ok`, `Reader.pure_eq_ok`: how a success of a reader comes apart.
* `u2_exact` .. `annotations_exact`: all parts of the format below the attributes are exact.
-/

namespace Interpose

/-- The bytes written for a part are at most as many as those read, and equal them if the condition holds. -/
structure Rewrites (used out : Bytes) (P : Prop) : Prop where
  length_le : out.length ≤ used.length
  eq_iff : out = used ↔ P

namespace Rewrites

variable {used used' out out' : Bytes} {P Q : Prop}

theorem rfl : Rewrites used used True :=
  ⟨Nat.le_refl _, by simp⟩

theorem congr (h : Rewrites used out P) (hPQ : P ↔ Q) : Rewrites used out Q :=
  ⟨h.length_le, h.eq_iff.trans hPQ⟩

theorem append (h : Rewrites used out P) (h' : Rewrites used' out' Q) :
    Rewrites (used ++ used') (out ++ out') (P ∧ Q) := by
  have hle := h.length_le
  have hle' := h'.length_le
  refine ⟨by simp only [List.length_append]; omega, ?_⟩
  rw [← h.eq_iff, ← h'.eq_iff]
  constructor
  · intro heq
    have hlen := congrArg List.length heq
    simp only [List.length_append] at hlen
    exact List.append_inj heq (by omega)
  · rintro ⟨rfl, rfl⟩
    exact .refl _

end Rewrites

namespace Reader

variable {α β : Type} {r : Reader α} {w : α → Bytes} {s rest : Bytes}

theorem bind_eq_ok {f : α → Reader β} {b : β} :
    (r >>= f) s = .ok (b, rest) ↔ ∃ a mid, r s = .ok (a, mid) ∧ f a mid = .ok (b, rest) := by
  rw [show (r >>= f) s = (r s >>= fun x => f x.1 x.2) from rfl, Interpose.bind_eq_ok, Prod.exists]

theorem pure_eq_ok {a b : α} :
    (pure a : Reader α) s = .ok (b, rest) ↔ a = b ∧ s = rest := by
  rw [show (pure a : Reader α) s = .ok (a, s) from rfl, Except.ok.injEq, Prod.mk.injEq]

theorem map_eq_ok {f : α → β} {b : β} :
    (f <$> r) s = .ok (b, rest) ↔ ∃ a, r s = .ok (a, rest) ∧ f a = b := by
  rw [map_eq_pure_bind, bind_eq_ok]
  simp only [pure_eq_ok]
  exact ⟨fun ⟨a, _, ha, hb, hmid⟩ => ⟨a, hmid ▸ ha, hb⟩, fun ⟨a, ha, hb⟩ => ⟨a, rest, ha, hb, rfl⟩⟩

theorem lift_eq_ok {x : Except FormatError α} {a : α} :
    (liftM x : Reader α) s = .ok (a, rest) ↔ x = .ok a ∧ s = rest := by
  cases x with
  | error e => simp [liftM, monadLift, MonadLift.monadLift, StateT.lift, bind, Except.bind]
  | ok b => simp [liftM, monadLift, MonadLift.monadLift, StateT.lift, bind, Except.bind, pure,
      Except.pure]

theorem fail_ne_ok {e : FormatError} {x : α × Bytes} : (fail e : Reader α) s ≠ .ok x :=
  nofun

/-- The writer gives back the very bytes that the reader took. -/
def Exact (r : Reader α) (w : α → Bytes) : Prop :=
  ∀ ⦃s a rest⦄, r s = .ok (a, rest) → s = w a ++ rest

theorem bytesOfU2_u2OfBytes (a b : UInt8) : bytesOfU2 (u2OfBytes a b) = [a, b] := by
  have := a.toNat_lt
  have := b.toNat_lt
  simp only [bytesOfU2, u2OfBytes, UInt16.toNat_ofNat', List.cons.injEq, ← UInt8.toNat_inj,
    UInt8.toNat_ofNat', and_true]
  omega

theorem bytesOfU4_u4OfBytes (a b c d : UInt8) : bytesOfU4 (u4OfBytes a b c d) = [a, b, c, d] := by
  have := a.toNat_lt
  have := b.toNat_lt
  have := c.toNat_lt
  have := d.toNat_lt
  simp only [bytesOfU4, u4OfBytes, UInt32.toNat_ofNat', List.cons.injEq, ← UInt8.toNat_inj,
    UInt8.toNat_ofNat', and_true]
  omega

theorem u2_rewrites (v v' : UInt16) : Rewrites (bytesOfU2 v) (bytesOfU2 v') (v' = v) := by
  refine ⟨by simp [bytesOfU2], fun h => ?_, fun h => by rw [h]⟩
  have := u2_bytesOfU2 v' []
  rw [h, u2_bytesOfU2] at this
  cases this
  rfl

theorem u4_rewrites (v v' : UInt32) : Rewrites (bytesOfU4 v) (bytesOfU4 v') (v' = v) := by
  refine ⟨by simp [bytesOfU4], fun h => ?_, fun h => by rw [h]⟩
  have := u4_bytesOfU4 v' []
  rw [h, u4_bytesOfU4] at this
  cases this
  rfl

theorem u1_exact : Exact u1 fun v => [v] := by
  intro s v rest h
  cases s with
  | nil => cases h
  | cons a s => cases h; rfl

theorem u2_exact : Exact u2 bytesOfU2 := by
  intro s v rest h
  match s with
  | [] | [_] => cases h
  | a :: b :: s =>
    cases h
    rw [bytesOfU2_u2OfBytes]
    rfl

theorem u4_exact : Exact u4 bytesOfU4 := by
  intro s v rest h
  match s with
  | [] | [_] | [_, _] | [_, _, _] => cases h
  | a :: b :: c :: d :: s =>
    cases h
    rw [bytesOfU4_u4OfBytes]
    rfl

theorem u8_exact : Exact u8 bytesOfU8 := by
  intro s v rest h
  obtain ⟨high, s₁, hhigh, h⟩ := bind_eq_ok.1 h
  obtain ⟨low, s₂, hlow, h⟩ := bind_eq_ok.1 h
  obtain ⟨rfl, rfl⟩ := pure_eq_ok.1 h
  have hlt := high.toNat_lt
  have hlt' := low.toNat_lt
  have hvalue : (UInt64.ofNat (high.toNat * 0x100000000 + low.toNat)).toNat
      = high.toNat * 0x100000000 + low.toNat := by
    rw [UInt64.toNat_ofNat']
    omega
  have hhigh' : UInt32.ofNat ((high.toNat * 0x100000000 + low.toNat) / 0x100000000) = high := by
    rw [show (high.toNat * 0x100000000 + low.toNat) / 0x100000000 = high.toNat by omega,
      UInt32.ofNat_toNat]
  have hlow' : UInt32.ofNat ((high.toNat * 0x100000000 + low.toNat) % 0x100000000) = low := by
    rw [show (high.toNat * 0x100000000 + low.toNat) % 0x100000000 = low.toNat by omega,
      UInt32.ofNat_toNat]
  rw [u4_exact hhigh, u4_exact hlow, bytesOfU8, hvalue, hhigh', hlow', List.append_assoc]

theorem take_eq_ok {n : Nat} {taken : Bytes} :
    take n s = .ok (taken, rest) ↔ taken.length = n ∧ s = taken ++ rest := by
  simp only [take, List.splitAt_eq]
  split
  case isTrue hn =>
    rw [Except.ok.injEq, Prod.mk.injEq]
    constructor
    · rintro ⟨rfl, rfl⟩
      exact ⟨hn, (List.take_append_drop n s).symm⟩
    · rintro ⟨rfl, rfl⟩
      simp
  case isFalse hn =>
    constructor
    · nofun
    · rintro ⟨rfl, rfl⟩
      simp at hn

/-! ## Several values -/

theorem manyOnto_eq_ok {n : Nat} {done vs : List α} :
    manyOnto r (n + 1) done s = .ok (vs, rest) ↔
      ∃ a mid, r s = .ok (a, mid) ∧ manyOnto r n (a :: done) mid = .ok (vs, rest) := by
  rw [manyOnto]
  cases r s with
  | error e => simp
  | ok x => exact ⟨fun h => ⟨x.1, x.2, rfl, h⟩, fun ⟨_, _, hx, h⟩ => Except.ok.inj hx ▸ h⟩

/-- The values read so far stay in front of the others. -/
theorem manyOnto_done {n : Nat} {done vs : List α} :
    manyOnto r n done s = .ok (vs, rest) ↔
      ∃ new, many n r s = .ok (new, rest) ∧ vs = done.reverse ++ new := by
  unfold many
  induction n generalizing s done vs with
  | zero => simp [manyOnto, eq_comm, and_comm]
  | succ n ih =>
    simp only [manyOnto_eq_ok]
    constructor
    · rintro ⟨a, mid, ha, h⟩
      obtain ⟨new, hnew, rfl⟩ := ih.1 h
      exact ⟨a :: new, ⟨a, mid, ha, ih.2 ⟨new, hnew, by simp⟩⟩, by simp⟩
    · rintro ⟨new, ⟨a, mid, ha, h⟩, rfl⟩
      obtain ⟨new, hnew, rfl⟩ := ih.1 h
      exact ⟨a, mid, ha, ih.2 ⟨new, hnew, by simp⟩⟩

theorem many_zero {vs : List α} : many 0 r s = .ok (vs, rest) ↔ vs = [] ∧ s = rest := by
  simp [many, manyOnto, eq_comm]

theorem many_succ {n : Nat} {vs : List α} :
    many (n + 1) r s = .ok (vs, rest) ↔
      ∃ a mid as, r s = .ok (a, mid) ∧ many n r mid = .ok (as, rest) ∧ vs = a :: as := by
  rw [many, manyOnto_eq_ok]
  constructor
  · rintro ⟨a, mid, ha, h⟩
    obtain ⟨as, has, rfl⟩ := manyOnto_done.1 h
    exact ⟨a, mid, as, ha, has, rfl⟩
  · rintro ⟨a, mid, as, ha, has, rfl⟩
    exact ⟨a, mid, ha, manyOnto_done.2 ⟨as, has, rfl⟩⟩

theorem many_length {n : Nat} {vs : List α} (h : many n r s = .ok (vs, rest)) : vs.length = n := by
  induction n generalizing s vs with
  | zero => rw [(many_zero.1 h).1]; rfl
  | succ n ih =>
    obtain ⟨a, mid, as, -, has, rfl⟩ := many_succ.1 h
    rw [List.length_cons, ih has]

theorem Exact.many (hr : Exact r w) (n : Nat) : Exact (many n r) (·.flatMap w) := by
  induction n with
  | zero =>
    intro s vs rest h
    obtain ⟨rfl, rfl⟩ := many_zero.1 h
    rfl
  | succ n ih =>
    intro s vs rest h
    obtain ⟨a, mid, as, ha, has, rfl⟩ := many_succ.1 h
    rw [hr ha, ih has]
    simp only [List.flatMap_cons, List.append_assoc]

theorem counted_eq_ok {vs : List α} :
    counted r s = .ok (vs, rest) ↔
      ∃ n mid, u2 s = .ok (n, mid) ∧ Reader.many n.toNat r mid = .ok (vs, rest) :=
  bind_eq_ok

theorem Exact.counted (hr : Exact r w) : Exact (counted r) (writeCounted w) := by
  intro s vs rest h
  obtain ⟨n, mid, hn, h⟩ := counted_eq_ok.1 h
  rw [u2_exact hn, hr.many n.toNat h, writeCounted, many_length h, UInt16.ofNat_toNat,
    List.append_assoc]

/-! ## The parts below the attributes -/

theorem verificationType_exact : Exact verificationType VerificationType.write := by
  intro s v rest h
  obtain ⟨tag, s₁, htag, h⟩ := bind_eq_ok.1 h
  rw [u1_exact htag]
  split at h
  case h_8 | h_9 =>
    obtain ⟨index, s₂, hindex, h⟩ := bind_eq_ok.1 h
    obtain ⟨rfl, rfl⟩ := pure_eq_ok.1 h
    rw [u2_exact hindex]
    rfl
  case h_10 => exact absurd h fail_ne_ok
  all_goals
    obtain ⟨rfl, rfl⟩ := pure_eq_ok.1 h
    rfl

theorem stackMapFrame_exact : Exact stackMapFrame StackMapFrame.write := by
  intro s f rest h
  obtain ⟨tag, s₁, htag, h⟩ := bind_eq_ok.1 h
  rw [u1_exact htag]
  -- the form is found by the first byte; each case writes that byte again
  split at h
  · obtain ⟨rfl, rfl⟩ := pure_eq_ok.1 h
    rw [StackMapFrame.write, UInt8.toUInt8_toUInt16]
  split at h
  · obtain ⟨stack, s₂, hstack, h⟩ := bind_eq_ok.1 h
    obtain ⟨rfl, rfl⟩ := pure_eq_ok.1 h
    rw [verificationType_exact hstack, StackMapFrame.write, UInt8.toUInt8_toUInt16,
      UInt8.add_comm, UInt8.sub_add_cancel]
    rfl
  split at h
  · exact absurd h fail_ne_ok
  split at h
  case isTrue heq =>
    obtain ⟨delta, s₂, hdelta, h⟩ := bind_eq_ok.1 h
    obtain ⟨stack, s₃, hstack, h⟩ := bind_eq_ok.1 h
    obtain ⟨rfl, rfl⟩ := pure_eq_ok.1 h
    rw [heq, u2_exact hdelta, verificationType_exact hstack]
    simp only [StackMapFrame.write, List.cons_append, List.nil_append, List.append_assoc]
  split at h
  · obtain ⟨delta, s₂, hdelta, h⟩ := bind_eq_ok.1 h
    obtain ⟨rfl, rfl⟩ := pure_eq_ok.1 h
    have htag : 251 - (251 - tag) = tag := by grind
    rw [u2_exact hdelta, StackMapFrame.write, htag]
    rfl
  split at h
  case isTrue heq =>
    obtain ⟨delta, s₂, hdelta, h⟩ := bind_eq_ok.1 h
    obtain ⟨rfl, rfl⟩ := pure_eq_ok.1 h
    rw [heq, u2_exact hdelta]
    rfl
  split at h
  case isTrue hne hle =>
    obtain ⟨delta, s₂, hdelta, h⟩ := bind_eq_ok.1 h
    obtain ⟨locals, s₃, hlocals, h⟩ := bind_eq_ok.1 h
    obtain ⟨rfl, rfl⟩ := pure_eq_ok.1 h
    have htag : 251 + UInt8.ofNat locals.length = tag := by
      rw [many_length hlocals]
      simp only [UInt8.le_iff_toNat_le, ← UInt8.toNat_inj, UInt8.toNat_add, UInt8.toNat_ofNat',
        UInt8.reduceToNat] at *
      omega
    rw [u2_exact hdelta, verificationType_exact.many _ hlocals, StackMapFrame.write, htag]
    simp only [List.cons_append, List.nil_append, List.append_assoc]
  case isFalse hgt =>
    obtain ⟨delta, s₂, hdelta, h⟩ := bind_eq_ok.1 h
    obtain ⟨locals, s₃, hlocals, h⟩ := bind_eq_ok.1 h
    obtain ⟨stack, s₄, hstack, h⟩ := bind_eq_ok.1 h
    obtain ⟨rfl, rfl⟩ := pure_eq_ok.1 h
    have htag : tag = 255 := by grind
    rw [htag, u2_exact hdelta, verificationType_exact.counted hlocals,
      verificationType_exact.counted hstack]
    simp only [StackMapFrame.write, List.cons_append, List.nil_append, List.append_assoc]

theorem writeAll_eq (values : List ElementValue) :
    ElementValue.writeAll values = values.flatMap ElementValue.write := by
  induction values with
  | nil => rfl
  | cons v rest ih => rw [ElementValue.writeAll, ih, List.flatMap_cons]

def writePair (pair : UInt16 × ElementValue) : Bytes :=
  bytesOfU2 pair.1 ++ pair.2.write

theorem writePairs_eq (pairs : List (UInt16 × ElementValue)) :
    ElementValue.writePairs pairs = pairs.flatMap writePair := by
  induction pairs with
  | nil => rfl
  | cons pair rest ih =>
    rw [ElementValue.writePairs, ih, List.flatMap_cons, writePair, List.append_assoc]

theorem annotationOf_exact {element : Reader ElementValue}
    (helement : Exact element ElementValue.write) :
    Exact (annotationOf element) AnnotationEntry.write := by
  have hpair : Exact (do return (← u2, ← element)) writePair := by
    intro s pair rest h
    obtain ⟨name, s₁, hname, h⟩ := bind_eq_ok.1 h
    obtain ⟨v, s₂, hv, h⟩ := bind_eq_ok.1 h
    obtain ⟨rfl, rfl⟩ := pure_eq_ok.1 h
    rw [u2_exact hname, helement hv, writePair, List.append_assoc]
  intro s a rest h
  obtain ⟨type, s₁, htype, h⟩ := bind_eq_ok.1 h
  obtain ⟨pairs, s₂, hpairs, h⟩ := bind_eq_ok.1 h
  obtain ⟨rfl, rfl⟩ := pure_eq_ok.1 h
  rw [u2_exact htype, hpair.counted hpairs, AnnotationEntry.write, writePairs_eq, writeCounted]
  simp only [List.append_assoc]

theorem ofNat_toNat_of_eq {tag : UInt8} {n : Nat} (h : tag.toNat = n) : UInt8.ofNat n = tag := by
  rw [← h, UInt8.ofNat_toNat]

theorem elementValue_exact (depth : Nat) : Exact (elementValue depth) ElementValue.write := by
  induction depth with
  | zero => exact fun _ _ _ h => absurd h fail_ne_ok
  | succ depth ih =>
    intro s v rest h
    obtain ⟨tag, s₁, htag, h⟩ := bind_eq_ok.1 h
    rw [u1_exact htag]
    split at h
    · obtain ⟨index, s₂, hindex, h⟩ := bind_eq_ok.1 h
      obtain ⟨rfl, rfl⟩ := pure_eq_ok.1 h
      rw [u2_exact hindex]
      rfl
    split at h
    case isTrue heq =>
      obtain ⟨typeName, s₂, htype, h⟩ := bind_eq_ok.1 h
      obtain ⟨constName, s₃, hconst, h⟩ := bind_eq_ok.1 h
      obtain ⟨rfl, rfl⟩ := pure_eq_ok.1 h
      rw [u2_exact htype, u2_exact hconst, ElementValue.write, ofNat_toNat_of_eq heq]
      simp only [List.cons_append, List.nil_append, List.append_assoc]
    split at h
    case isTrue heq =>
      obtain ⟨index, s₂, hindex, h⟩ := bind_eq_ok.1 h
      obtain ⟨rfl, rfl⟩ := pure_eq_ok.1 h
      rw [u2_exact hindex, ElementValue.write, ofNat_toNat_of_eq heq]
      rfl
    split at h
    case isTrue heq =>
      obtain ⟨a, s₂, ha, h⟩ := bind_eq_ok.1 h
      obtain ⟨rfl, rfl⟩ := pure_eq_ok.1 h
      rw [annotationOf_exact ih ha, ElementValue.write, ofNat_toNat_of_eq heq]
      simp only [AnnotationEntry.write, List.cons_append, List.nil_append, List.append_assoc]
    split at h
    case isTrue heq =>
      obtain ⟨values, s₂, hvalues, h⟩ := bind_eq_ok.1 h
      obtain ⟨rfl, rfl⟩ := pure_eq_ok.1 h
      rw [ih.counted hvalues, ElementValue.write, writeAll_eq, ofNat_toNat_of_eq heq]
      simp only [writeCounted, List.cons_append, List.nil_append, List.append_assoc]
    · exact absurd h fail_ne_ok

theorem annotations_exact : Exact annotations (writeCounted AnnotationEntry.write) :=
  fun s _ _ h => (annotationOf_exact (elementValue_exact s.length)).counted h

theorem lineEntry_exact : Exact lineEntry LineEntry.write := by
  intro s e rest h
  obtain ⟨startPc, s₁, h₁, h⟩ := bind_eq_ok.1 h
  obtain ⟨line, s₂, h₂, h⟩ := bind_eq_ok.1 h
  obtain ⟨rfl, rfl⟩ := pure_eq_ok.1 h
  rw [u2_exact h₁, u2_exact h₂, LineEntry.write, List.append_assoc]

theorem localEntry_exact : Exact localEntry LocalEntry.write := by
  intro s e rest h
  obtain ⟨startPc, s₁, h₁, h⟩ := bind_eq_ok.1 h
  obtain ⟨length, s₂, h₂, h⟩ := bind_eq_ok.1 h
  obtain ⟨name, s₃, h₃, h⟩ := bind_eq_ok.1 h
  obtain ⟨type, s₄, h₄, h⟩ := bind_eq_ok.1 h
  obtain ⟨slot, s₅, h₅, h⟩ := bind_eq_ok.1 h
  obtain ⟨rfl, rfl⟩ := pure_eq_ok.1 h
  rw [u2_exact h₁, u2_exact h₂, u2_exact h₃, u2_exact h₄, u2_exact h₅]
  simp only [LocalEntry.write, List.append_assoc]

theorem exceptionEntry_exact : Exact exceptionEntry ExceptionEntry.write := by
  intro s e rest h
  obtain ⟨startPc, s₁, h₁, h⟩ := bind_eq_ok.1 h
  obtain ⟨endPc, s₂, h₂, h⟩ := bind_eq_ok.1 h
  obtain ⟨handlerPc, s₃, h₃, h⟩ := bind_eq_ok.1 h
  obtain ⟨catchType, s₄, h₄, h⟩ := bind_eq_ok.1 h
  obtain ⟨rfl, rfl⟩ := pure_eq_ok.1 h
  rw [u2_exact h₁, u2_exact h₂, u2_exact h₃, u2_exact h₄]
  simp only [ExceptionEntry.write, List.append_assoc]

end Reader

end Interpose
