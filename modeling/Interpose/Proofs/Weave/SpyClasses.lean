import Interpose.Weave.SpyClasses
import Interpose.Proofs.Weave.Untouched
/-!
# The dispatch classes can be made

Whether a class can be put together depends on its pool: it must not run full, and every text in it has
to be short enough to be written. `Pool.Small` is what additions keep while there is room. The pool of
the class with the dispatch methods is followed with it, addition by addition; the class of verdicts has
code, and is evaluated.

Result:
* `spyClasses_made`: both classes are made, whatever becomes of them.
-/

namespace Interpose

theorem ModifiedUtf8.encode_append (s t : String) : encode (s ++ t) = encode s ++ encode t := by
  simp [encode, units]

namespace Pool

/-- A pool with a bound on its slots, whose constants can be written. -/
structure Small (n : Nat) (p : Pool) : Prop where
  sound : p.Sound
  count_le : p.count ≤ n
  written : ∀ c, some c ∈ p.slots.toList → ∃ out, c.write = .ok out

variable {p : Pool} {n : Nat}

theorem empty_small : empty.Small 1 where
  sound := empty_sound
  count_le := Nat.le_refl 1
  written c hc := by
    rw [empty, ofSlots_slots] at hc
    simp at hc

theorem Small.write (hp : p.Small n) : ∃ out, p.write = .ok out := by
  have hparts (x : Nat × Constant) (hx : x ∈ p.constants) : ∃ out, x.2.write = .ok out := by
    refine hp.written x.2 (List.mem_of_getElem? (i := x.1) ?_)
    rw [Array.getElem?_toList]
    exact mem_constants.1 hx
  obtain ⟨parts, hparts⟩ := mapM_ok hparts
  exact ⟨_, bind_eq_ok.2 ⟨parts, hparts, rfl⟩⟩

theorem Small.appendConstant (hp : p.Small n) {c : Constant} (hn : n + c.width ≤ 0xFFFF)
    (hc : ∃ out, c.write = .ok out) : (p.appendConstant c).Small (n + c.width) := by
  have hcount := hp.count_le
  refine ⟨(hp.sound.appendConstant c (by omega)).sound, ?_, fun d hd => ?_⟩
  · rw [appendConstant_count]
    omega
  · rw [appendConstant_slots, List.mem_append] at hd
    rcases hd with hd | hd
    · exact hp.written d hd
    · have hdc : d = c := by
        unfold Constant.slots at hd
        split at hd <;> simpa using hd
      exact hdc ▸ hc

theorem intern_small (hp : p.Small n) {c : Constant} (hn : n + c.width ≤ 0xFFFF)
    (hc : ∃ out, c.write = .ok out) :
    ∃ i q, (intern c).run.run p = (.ok i, q) ∧ q.Small (n + c.width) := by
  have hindexed : p.indexed.Small n := ⟨hp.sound.indexed.sound, hp.count_le, hp.written⟩
  have hcount := hindexed.count_le
  cases hi : p.indexed.position? c with
  | some i =>
    have run : (intern c).run.run p = (.ok (UInt16.ofNat i), p.indexed) := by
      change intern c p = _
      simp only [intern, hi]
    exact ⟨_, _, run, hindexed.sound, by omega, hindexed.written⟩
  | none =>
    have hroom : ¬ p.indexed.count + c.width > 0xFFFF := by omega
    have run : (intern c).run.run p
        = (.ok (UInt16.ofNat p.indexed.count), p.indexed.appendConstant c) := by
      change intern c p = _
      simp only [intern, hi, hroom, if_false]
    exact ⟨_, _, run, hindexed.appendConstant hn hc⟩

theorem addUtf8_small (hp : p.Small n) (hn : n + 1 ≤ 0xFFFF) {text : String}
    (htext : (ModifiedUtf8.encode text).length ≤ 0xFFFF) :
    ∃ i q, (addUtf8 text).run.run p = (.ok i, q) ∧ q.Small (n + 1) := by
  have hwrite : ∃ out, (Constant.utf8 text).write = .ok out := ⟨_, if_neg (Nat.not_lt.2 htext)⟩
  rw [addUtf8]
  simp only [Nat.not_lt.2 htext, if_false]
  exact intern_small hp hn hwrite

theorem addClass_small (hp : p.Small n) (hn : n + 2 ≤ 0xFFFF) {name : String}
    (hname : (ModifiedUtf8.encode name).length ≤ 0xFFFF) :
    ∃ i q, (addClass name).run.run p = (.ok i, q) ∧ q.Small (n + 2) := by
  obtain ⟨i, q, hi, hq⟩ := addUtf8_small hp (by omega) hname
  obtain ⟨j, r, hj, hr⟩ := intern_small hq (c := .classRef i) hn ⟨_, rfl⟩
  exact ⟨j, r, run_bind_eq_ok.2 ⟨i, q, hi, hj⟩, hr⟩

end Pool

namespace Spy

variable {p : Pool} {n : Nat}

theorem emptyClass_small (hp : p.Small n) (hn : n + 4 ≤ 0xFFFF) {name : String}
    (hname : (ModifiedUtf8.encode name).length ≤ 0xFFFF) :
    ∃ c q, (emptyClass name).run.run p = (.ok c, q) ∧ q.Small (n + 4) ∧
      c.fields = [] ∧ c.attributes = [] := by
  obtain ⟨i, q, hi, hq⟩ := Pool.addClass_small hp (by omega) hname
  obtain ⟨j, r, hj, hr⟩ := Pool.addClass_small hq (by omega)
    (by decide +kernel : (ModifiedUtf8.encode objectClass).length ≤ 0xFFFF)
  exact ⟨_, r, run_bind_eq_ok.2 ⟨i, q, adapt_eq_ok.2 hi,
    run_bind_eq_ok.2 ⟨j, r, adapt_eq_ok.2 hj, rfl⟩⟩, hr, rfl, rfl⟩

theorem member_small (hp : p.Small n) (hn : n + 2 ≤ 0xFFFF) (access : UInt16) {name descriptor : String}
    (hname : (ModifiedUtf8.encode name).length ≤ 0xFFFF)
    (hdescriptor : (ModifiedUtf8.encode descriptor).length ≤ 0xFFFF) :
    ∃ m q, (member access name descriptor).run.run p = (.ok m, q) ∧ q.Small (n + 2) ∧
      m.attributes = [] := by
  obtain ⟨i, q, hi, hq⟩ := Pool.addUtf8_small hp (by omega) hname
  obtain ⟨j, r, hj, hr⟩ := Pool.addUtf8_small hq hn hdescriptor
  exact ⟨_, r, run_bind_eq_ok.2 ⟨i, q, adapt_eq_ok.2 hi,
    run_bind_eq_ok.2 ⟨j, r, adapt_eq_ok.2 hj, rfl⟩⟩, hr, rfl⟩

theorem length_methodName (k : EventKind) : (ModifiedUtf8.encode (methodName k)).length ≤ 0xFFFF := by
  cases k <;> decide +kernel

theorem length_methodDescriptor (k : EventKind) :
    (ModifiedUtf8.encode (methodDescriptor k)).length ≤ 0xFFFF := by
  cases k <;>
    simp only [methodDescriptor, parameterTypes, String.join, List.foldl_cons, List.foldl_nil,
      ModifiedUtf8.encode_append, List.length_append] <;>
    decide +kernel

/-- Every dispatch method takes two texts. -/
theorem methods_small (hp : p.Small n) (access : UInt16) (kinds : List EventKind)
    (hn : n + 2 * kinds.length ≤ 0xFFFF) :
    ∃ ms q, (kinds.mapM fun k => member access (methodName k) (methodDescriptor k)).run.run p
        = (.ok ms, q) ∧ q.Small (n + 2 * kinds.length) ∧ ∀ m ∈ ms, m.attributes = [] := by
  induction kinds generalizing p n with
  | nil => exact ⟨[], p, rfl, hp, nofun⟩
  | cons k kinds ih =>
    rw [List.length_cons] at hn
    obtain ⟨m, q, hm, hq, hnone⟩ := member_small hp (by omega) access (length_methodName k)
      (length_methodDescriptor k)
    obtain ⟨ms, r, hms, hr, hnones⟩ := ih hq (by omega)
    refine ⟨m :: ms, r, ?_, ?_, List.forall_mem_cons.2 ⟨hnone, hnones⟩⟩
    · rw [List.mapM_cons]
      exact run_bind_eq_ok.2 ⟨m, q, hm, run_bind_eq_ok.2 ⟨ms, r, hms, rfl⟩⟩
    · rw [List.length_cons, show n + 2 * (kinds.length + 1) = n + 2 + 2 * kinds.length by omega]
      exact hr

theorem bytesOf_made {build : Assembly ClassFile} {c : ClassFile} {q : Pool}
    (hrun : build.run.run .empty = (.ok c, q))
    (hbytes : ∃ out, ({ c with pool := q } : ClassFile).toBytes = .ok out) :
    ∃ out, bytesOf build = .ok out := by
  obtain ⟨out, hout⟩ := hbytes
  unfold bytesOf
  rw [hrun]
  exact ⟨out, bind_eq_ok.2 ⟨c, rfl, mapError_eq_ok.2 hout⟩⟩

theorem dispatchClass_made : ∃ out, bytesOf dispatchClass = .ok out := by
  obtain ⟨c, q, hc, hq, hfields, hattributes⟩ := emptyClass_small Pool.empty_small (by decide)
    (by decide +kernel : (ModifiedUtf8.encode className).length ≤ 0xFFFF)
  obtain ⟨methods, r, hmethods, hr, hnone⟩ := methods_small hq
    (Access.publicFlag ||| Access.staticFlag ||| Access.nativeFlag) EventKind.all (by decide)
  have hrun : dispatchClass.run.run .empty = (.ok { c with methods }, r) :=
    run_bind_eq_ok.2 ⟨c, q, hc, run_bind_eq_ok.2 ⟨methods, r, hmethods, rfl⟩⟩
  refine bytesOf_made hrun (Weaver.toBytes_of_members hattributes hr.write ?_ ?_)
  · intro m hm
    rw [hfields] at hm
    cases hm
  · exact fun m hm => Weaver.written_of_no_attributes (hnone m hm) r

/-- A method with nothing but code without tables can be written if the pool names code. -/
theorem written_of_code {m : Member} {q : Pool} {maxStack maxLocals : UInt16} {code : Bytes}
    {exceptions : List ExceptionEntry} {i : UInt16}
    (hm : m.attributes = [.code ⟨maxStack, maxLocals, code, exceptions, []⟩])
    (hi : attributeNameSlot q "Code" = .ok i) : ∃ out, m.write q = .ok out := by
  have hwritten : ∃ out, (Attribute.code ⟨maxStack, maxLocals, code, exceptions, []⟩).write q =
      .ok out := by
    rw [Attribute.write, Attribute.writeBody, CodeAttribute.write, Attribute.writeAll]
    exact ⟨_, bind_eq_ok.2 ⟨i, hi, rfl⟩⟩
  obtain ⟨out, hout⟩ := hwritten
  have hattributes : ∃ all, writeAttributes q m.attributes = .ok all := by
    rw [hm, writeAttributes_eq]
    exact ⟨_, bind_eq_ok.2 ⟨[out], mapM_eq_ok.2 (.cons hout .nil), rfl⟩⟩
  obtain ⟨all, hall⟩ := hattributes
  exact ⟨_, bind_eq_ok.2 ⟨all, hall, rfl⟩⟩

/-- What the class of verdicts comes to: two plain fields, and a constructor whose code has no tables. -/
def isVerdict (c : ClassFile) (q : Pool) : Bool :=
  c.attributes.isEmpty && c.fields.all (·.attributes.isEmpty) && q.write.toOption.any (fun _ => true) &&
    (attributeNameSlot q "Code").toOption.any (fun _ => true) &&
    c.methods.all fun m => match m.attributes with
      | [.code ⟨_, _, _, _, []⟩] => true
      | _ => false

theorem verdictClass_made : ∃ out, bytesOf verdictClassFile = .ok out := by
  have hcheck : (verdictClassFile.run.run .empty).1.toOption.any
      (fun c => isVerdict c (verdictClassFile.run.run .empty).2) = true := by decide +kernel
  obtain ⟨c, hc, hcheck⟩ := any_toOption.1 hcheck
  generalize hq : (verdictClassFile.run.run .empty).2 = q at hcheck
  simp only [isVerdict, Bool.and_eq_true, List.isEmpty_iff, List.all_eq_true, any_toOption,
    and_true] at hcheck
  obtain ⟨⟨⟨⟨hattributes, hfields⟩, hpool⟩, i, hi⟩, hmethods⟩ := hcheck
  refine bytesOf_made (Prod.ext hc hq) (Weaver.toBytes_of_members hattributes hpool ?_ ?_)
  · exact fun m hm => Weaver.written_of_no_attributes (hfields m hm) q
  · intro m hm
    have hm := hmethods m hm
    split at hm
    case h_1 maxStack maxLocals code exceptions hcode => exact written_of_code hcode hi
    case h_2 => cases hm

end Spy

/-- The dispatch classes can be made: the class with the dispatch methods first, then that of verdicts. -/
theorem spyClasses_made : ∃ dispatch verdict,
    spyClasses = .ok [(Spy.className, dispatch), (Spy.verdictClass, verdict)] := by
  obtain ⟨dispatch, hdispatch⟩ := Spy.dispatchClass_made
  obtain ⟨verdict, hverdict⟩ := Spy.verdictClass_made
  exact ⟨dispatch, verdict, bind_eq_ok.2 ⟨dispatch, hdispatch, bind_eq_ok.2 ⟨verdict, hverdict, rfl⟩⟩⟩

end Interpose
