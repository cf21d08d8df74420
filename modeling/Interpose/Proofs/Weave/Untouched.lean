import Interpose.Proofs.ClassFile.Rereading
import Interpose.Proofs.ClassFile.ReadFits
import Interpose.Proofs.Code.Writable
import Interpose.Proofs.Weave.Methods
/-!
# What weaving leaves alone

A class is woven in memory first (`Weaver.rewrite`) and then written. What is written can be read again
because everything that was read fits the format, what is woven fits it as far as its tables can be
counted, and the pool has only grown. Read again, the class has its old constants in their old places, and
all else but the woven methods is what it was.

Results:
* `Weaver.weave_eq`: weaving is reading, rewriting and writing.
* `Weaver.weave_yields`: what comes out of a success, read again.
* `Weaver.weave_untouched`: all outcomes of weaving a class file.
-/

namespace Interpose

namespace Attribute

variable {p : Pool}

theorem Throughout.of_not_code {P : Attribute → Prop} {a : Attribute} (ha : P a)
    (hcode : ∀ body, a ≠ .code body) : a.Throughout P :=
  ⟨ha, fun body hbody => absurd hbody (hcode body)⟩

end Attribute

theorem Listeners.length_decodeMany_le (n : Nat) (bytes : Bytes) :
    (decodeMany n bytes).length ≤ n := by
  fun_induction decodeMany n bytes with
  | case1 count a b c d rest ih => simpa using ih
  | case2 => exact Nat.zero_le _

theorem length_wovenListeners_le (m : Member) : (wovenListeners m).length ≤ 0xFFFF := by
  unfold wovenListeners
  cases m.rawAttribute? Listeners.attributeName with
  | none => exact Nat.zero_le _
  | some info =>
    simp only [Option.map_some, Option.getD_some]
    unfold Listeners.decode
    split
    case h_1 a b rest =>
      have hle := Listeners.length_decodeMany_le (u2OfBytes a b).toNat rest
      have := (u2OfBytes a b).toNat_lt
      omega
    · exact Nat.zero_le _

/-- The attribute that lists at most one listener more than can be counted fits the format. -/
theorem Listeners.encode_fits (p : Pool) {ids : List Int32} (h : ids.length ≤ 0x10000) :
    (Attribute.unknown attributeName (encode ids)).Fits p := by
  refine ⟨by simp [Attribute.ListsFit, attributeName, modelledNames], fun body hbody => ?_⟩
  rw [Attribute.writeBody] at hbody
  cases hbody
  have hids : (ids.flatMap encodeOne).length = 4 * ids.length := by
    induction ids with
    | nil => rfl
    | cons id ids ih =>
      rw [List.flatMap_cons, List.length_append, ih (by simp at h; omega)]
      simp [encodeOne, bytesOfU4]
      omega
  rw [encode, List.length_append, hids]
  simp [bytesOfU2]
  omega

namespace Weaver

variable {p q : Pool} {className : String} {selected : List String} {listener : Int32}
  {m : Member} {r : Member × Option String}

/-- A method fits the format after weaving if its tables do. -/
theorem Became.allFit (hm : Attribute.AllSettled q m.attributes)
    (hbecame : Became className q selected listener m r) (htables : HasTables r)
    (hroom : r.2.isSome → r.1.TablesFit q)
    (hwritten : ∀ a ∈ r.1.attributes, ∃ out, a.write q = .ok out) :
    Attribute.AllFit q r.1.attributes := by
  cases hbecame with
  | kept => exact hm.allFit
  | woven new hcode hdue =>
    have hroom := hroom rfl
    have hnew : (withListeners (m.withCode new) (wovenListeners m ++ [listener])).code? = some new := by
      rw [Member.code?_withListeners, Member.code?_withCode]
      obtain ⟨given, hgiven⟩ := Option.isSome_iff_exists.1 hdue.hasCode
      rw [hgiven]
      rfl
    refine ⟨hroom.attributes, fun a ha => ?_⟩
    rcases Member.mem_rewritten ha with hold | rfl | rfl
    · exact hm.allFit.each a hold
    · obtain ⟨out, hout⟩ := hwritten _ ha
      rw [Attribute.write] at hout
      obtain ⟨index, -, hout⟩ := bind_eq_ok.1 hout
      obtain ⟨body, hbody, -⟩ := bind_eq_ok.1 hout
      rw [Attribute.writeBody] at hbody
      exact Attribute.code_fits hbody (hroom.length new hnew body hbody) (hroom.exceptions new hnew)
        (htables rfl new hnew) (hroom.tables new hnew)
    · refine .of_not_code (Listeners.encode_fits q ?_) (fun _ hcode => by cases hcode)
      have := length_wovenListeners_le m
      rw [List.length_append, List.length_singleton]
      omega

/-! ## Whole classes -/

def site (w : Weaver) (loader : Int32) (c : ClassFile) (owner : String) (superName : Option String)
    (signCodes : List String) : ClassSite where
  owner := owner
  className := toJavaName owner
  majorVersion := c.majorVersion
  selected := signCodes
  hierarchy := (w.hierarchy.getD Hierarchy.rootOnly).lifting owner superName
  plan := { space := w.space, listener := w.listener, loader, kinds := w.kinds,
            className := toJavaName owner }

/-- The constants and methods of a class after weaving; those that were woven come with their signature
codes. -/
def rewrite (w : Weaver) (loader : Int32) (c : ClassFile) (signCodes : List String) :
    Except TransformError (Pool × List (Member × Option String)) := do
  let owner ← c.thisClassName.mapError .malformed
  let superName ← c.superClassName.mapError .malformed
  let (outcome, pool) := (methods (w.site loader c owner superName signCodes) c.methods).run.run c.pool
  let members ← outcome
  return (pool, members)

variable {w : Weaver} {loader : Int32} {bytes : Bytes} {signCodes : List String} {c : ClassFile}

/-- Weaving is reading, rewriting and, if anything was woven, writing. -/
theorem weave_eq (w : Weaver) (loader : Int32) (bytes : Bytes) (signCodes : List String) :
    w.weave loader bytes signCodes = (do
      let c ← (ClassFile.parse bytes).mapError .malformed
      let (pool, members) ← w.rewrite loader c signCodes
      let behaviors := members.filterMap (·.2)
      if behaviors.isEmpty then return { bytes, behaviors }
      else
        let woven : ClassFile := { c with pool, methods := members.map (·.1) }
        let bytes ← woven.toBytes.mapError fun e => .weaving (.pool e)
        return { bytes, behaviors }) := by
  unfold weave rewrite site
  simp only [bind_assoc]
  refine congrArg (_ >>= ·) (funext fun c => congrArg (_ >>= ·) (funext fun owner =>
    congrArg (_ >>= ·) (funext fun superName => ?_)))
  generalize (methods _ c.methods).run.run c.pool = run
  obtain ⟨outcome, pool⟩ := run
  cases outcome <;> rfl

theorem rewrite_eq_ok {pool : Pool} {members : List (Member × Option String)} :
    w.rewrite loader c signCodes = .ok (pool, members) ↔
      ∃ owner superName, c.thisClassName = .ok owner ∧ c.superClassName = .ok superName ∧
        (methods (w.site loader c owner superName signCodes) c.methods).run.run c.pool
          = (.ok members, pool) := by
  unfold rewrite
  constructor
  · intro h
    obtain ⟨owner, howner, h⟩ := bind_eq_ok.1 h
    obtain ⟨superName, hsuper, h⟩ := bind_eq_ok.1 h
    refine ⟨owner, superName, mapError_eq_ok.1 howner, mapError_eq_ok.1 hsuper, ?_⟩
    generalize (methods (w.site loader c owner superName signCodes) c.methods).run.run c.pool = run at h ⊢
    obtain ⟨outcome, pool'⟩ := run
    obtain ⟨members', hmembers, h⟩ := bind_eq_ok.1 h
    cases h
    rw [show outcome = .ok members from hmembers]
  · rintro ⟨owner, superName, howner, hsuper, hrun⟩
    refine bind_eq_ok.2 ⟨owner, mapError_eq_ok.2 howner, bind_eq_ok.2 ⟨superName,
      mapError_eq_ok.2 hsuper, ?_⟩⟩
    rw [hrun]
    rfl

/-- What a success of weaving consists of. -/
theorem weave_eq_ok {out : Woven} (hc : ClassFile.parse bytes = .ok c)
    (h : w.weave loader bytes signCodes = .ok out) :
    ∃ pool members, w.rewrite loader c signCodes = .ok (pool, members) ∧
      out.behaviors = members.filterMap (·.2) ∧
      (out.isModified = false → out.bytes = bytes) ∧
      (out.isModified = true →
        ({ c with pool, methods := members.map (·.1) } : ClassFile).toBytes = .ok out.bytes) := by
  rw [weave_eq] at h
  obtain ⟨c', hc', h⟩ := bind_eq_ok.1 h
  cases hc.symm.trans (mapError_eq_ok.1 hc')
  obtain ⟨⟨pool, members⟩, hrewrite, h⟩ := bind_eq_ok.1 h
  refine ⟨pool, members, hrewrite, ?_⟩
  dsimp only at h
  split at h
  case isTrue hempty =>
    cases h
    refine ⟨rfl, fun _ => rfl, fun hmodified => ?_⟩
    unfold Woven.isModified at hmodified
    rw [hempty] at hmodified
    cases hmodified
  case isFalse hsome =>
    obtain ⟨written, hwritten, h⟩ := bind_eq_ok.1 h
    cases h
    refine ⟨rfl, fun hmodified => ?_, fun _ => mapError_eq_ok.1 hwritten⟩
    unfold Woven.isModified at hmodified
    rw [Bool.not_eq_false'] at hmodified
    exact absurd hmodified hsome

theorem weave_of_rewrite {pool : Pool} {members : List (Member × Option String)} {out : Bytes}
    (hc : ClassFile.parse bytes = .ok c)
    (hrewrite : w.rewrite loader c signCodes = .ok (pool, members))
    (hsome : (members.filterMap (·.2)).isEmpty = false)
    (hout : ({ c with pool, methods := members.map (·.1) } : ClassFile).toBytes = .ok out) :
    w.weave loader bytes signCodes = .ok { bytes := out, behaviors := members.filterMap (·.2) } := by
  rw [weave_eq]
  refine bind_eq_ok.2 ⟨c, mapError_eq_ok.2 hc, bind_eq_ok.2 ⟨_, hrewrite, ?_⟩⟩
  dsimp only
  rw [if_neg (ne_true_of_eq_false hsome)]
  exact bind_eq_ok.2 ⟨out, mapError_eq_ok.2 hout, rfl⟩

/-- The second class file is the first one woven: all constants are where they were, the methods that are
due are woven and all others are as they were, and so is everything else. -/
structure Rewoven (selected : List String) (listener : Int32) (c d : ClassFile)
    (behaviors : List String) : Prop where
  rest : d = { c with pool := d.pool, methods := d.methods }
  slots : c.pool.slots.toList <+: d.pool.slots.toList
  methods : ∃ owner members, c.thisClassName = .ok owner ∧ d.methods = members.map (·.1) ∧
    behaviors = members.filterMap (·.2) ∧
    List.Forall₂ (Became (toJavaName owner) d.pool selected listener) c.methods members

def RoomFor (w : Weaver) (loader : Int32) (c : ClassFile) (signCodes : List String) : Prop :=
  ∀ pool members, w.rewrite loader c signCodes = .ok (pool, members) →
    ∀ r ∈ members, r.2.isSome → r.1.TablesFit pool

/-- What a class file that was written consists of could be written. -/
theorem attribute_written (h : c.toBytes = .ok bytes) (hm : m ∈ c.methods) {a : Attribute}
    (ha : a ∈ m.attributes) : ∃ out, a.write c.pool = .ok out := by
  obtain ⟨pool, -, h⟩ := bind_eq_ok.1 h
  obtain ⟨fields, -, h⟩ := bind_eq_ok.1 h
  obtain ⟨methods, hmethods, -⟩ := bind_eq_ok.1 h
  obtain ⟨parts, hparts, -⟩ := bind_eq_ok.1 hmethods
  obtain ⟨part, -, hpart⟩ := (mem_forall₂ (mapM_eq_ok.1 hparts)).1 m hm
  obtain ⟨attributes, hattributes, -⟩ := bind_eq_ok.1 hpart
  rw [writeAttributes_eq] at hattributes
  obtain ⟨outs, houts, -⟩ := bind_eq_ok.1 hattributes
  obtain ⟨out, -, hout⟩ := (mem_forall₂ (mapM_eq_ok.1 houts)).1 a ha
  exact ⟨out, hout⟩

/-- What is written of a class whose methods became others fits the format. -/
theorem rewritten_fits (hc : c.Settled) (hgrows : c.pool.Grows q)
    {members : List (Member × Option String)}
    (hbecame : List.Forall₂ (fun m r => Became className q selected listener m r ∧ HasTables r)
      c.methods members)
    (hroom : ∀ r ∈ members, r.2.isSome → r.1.TablesFit q)
    (hbytes : ({ c with pool := q, methods := members.map (·.1) } : ClassFile).toBytes = .ok bytes) :
    ClassFile.Fits { c with pool := q, methods := members.map (·.1) } := by
  refine ⟨hc.pool.grows hgrows, hc.interfaces, hc.fields, ?_, ?_, ?_, (hc.attributes.grows hgrows).allFit⟩
  · change (members.map (·.1)).length < _
    rw [List.length_map, ← hbecame.length_eq]
    exact hc.methods
  · exact fun m hm => ((hc.ofFields m hm).grows hgrows).allFit
  · intro m' hm'
    obtain ⟨r, hr, rfl⟩ := List.mem_map.1 hm'
    obtain ⟨m, hm, hbecame, htables⟩ := (mem_forall₂ hbecame).2 r hr
    exact hbecame.allFit ((hc.ofMethods m hm).grows hgrows) htables (hroom r hr)
      fun a ha => attribute_written hbytes hm' ha

/-- What comes out of a success, read again. -/
theorem weave_yields {out : Woven} (hc : ClassFile.parse bytes = .ok c)
    (hcount : c.pool.count < 0x10000) (h : w.weave loader bytes signCodes = .ok out)
    (hroom : w.RoomFor loader c signCodes) :
    ∃ d, ClassFile.parse out.bytes = .ok d ∧ d.pool.count < 0x10000 ∧
      Rewoven signCodes w.listener c d out.behaviors := by
  have hsettled := ClassFile.settled_of_parse hc hcount
  obtain ⟨pool, members, hrewrite, hbehaviors, hunmodified, hbytes⟩ := weave_eq_ok hc h
  obtain ⟨owner, superName, howner, -, hrun⟩ := rewrite_eq_ok.1 hrewrite
  obtain ⟨hgrows, hsame, hbecame⟩ := methods_became hsettled.pool.sound hrun
  cases hmodified : out.isModified with
  | false =>
    have hnone : ∀ r ∈ members, r.2 = none := by
      rw [Woven.isModified, Bool.not_eq_false', List.isEmpty_iff, hbehaviors,
        List.filterMap_eq_nil_iff] at hmodified
      exact hmodified
    obtain rfl := hsame hnone
    have hkept : List.Forall₂ (· = ·) c.methods (members.map (·.1)) := List.forall₂_map_right_iff.2
      (forall₂_imp_of_mem hbecame fun m _ r hr h => (h.1.eq_of_none (hnone r hr)).symm)
    rw [List.forall₂_eq_eq_eq] at hkept
    exact ⟨c, by rw [hunmodified hmodified, hc], hcount, rfl, List.prefix_rfl, owner, members, howner,
      hkept, hbehaviors, hbecame.imp fun _ _ h => h.1⟩
  | true =>
    have hbytes := hbytes hmodified
    have hfits := rewritten_fits hsettled hgrows hbecame (hroom pool members hrewrite) hbytes
    obtain ⟨d, hd, hsame⟩ := ClassFile.parse_toBytes hfits hbytes
    have hslots : d.pool.slots = pool.slots := hsame.slots
    have hmethods : d.methods = members.map (·.1) := by rw [hsame.rest]
    have hwithin : pool.Within d.pool := Pool.within_of_isPrefix (hslots ▸ List.prefix_rfl)
    refine ⟨d, hd, ?_, ?_, ?_, owner, members, howner, hmethods, hbehaviors, ?_⟩
    · rw [Pool.count, hslots]
      exact hfits.pool.count_lt
    · rw [hmethods]
      exact hsame.rest
    · rw [hslots]
      exact hgrows.isPrefix
    · exact hbecame.imp fun _ _ h => h.1.within hwithin

/-- The fault of a method is that of the whole class. -/
theorem weave_fails (hc : ClassFile.parse bytes = .ok c) {owner : String} {superName : Option String}
    (howner : c.thisClassName = .ok owner) (hsuper : c.superClassName = .ok superName)
    {before after : List Member} (hmethods : c.methods = before ++ m :: after)
    {rs : List (Member × Option String)} {p q : Pool} {e : TransformError}
    (hbefore : (methods (w.site loader c owner superName signCodes) before).run.run c.pool = (.ok rs, p))
    (hm : (method (w.site loader c owner superName signCodes) m).run.run p = (.error e, q)) :
    w.weave loader bytes signCodes = .error e := by
  have hrewrite : w.rewrite loader c signCodes = .error e := by
    unfold rewrite
    rw [howner, hsuper]
    simp only [Except.mapError, bind, Except.bind]
    rw [hmethods, methods_fails hbefore hm]
  rw [weave_eq, hc]
  change (w.rewrite loader c signCodes >>= _) = _
  rw [hrewrite]
  rfl

/-! ## A class with two methods -/

/-- A class with a method that only returns and a method without code. -/
def twoMethods : Bytes :=
  [0xCA, 0xFE, 0xBA, 0xBE, 0, 0, 0, 49, 0, 9,
    1, 0, 1, 0x41, 7, 0, 1, 1, 0, 1, 0x6D, 1, 0, 3, 0x28, 0x29, 0x56,
    1, 0, 4, 0x43, 0x6F, 0x64, 0x65, 1, 0, 1, 0x6E, 5, 0, 0, 0, 0, 0, 0, 0, 1,
    0, 0x21, 0, 2, 0, 0, 0, 0, 0, 0, 0, 2,
    0, 9, 0, 3, 0, 4, 0, 1, 0, 5, 0, 0, 0, 13, 0, 0, 0, 0, 0, 0, 0, 1, 177, 0, 0, 0, 0,
    1, 1, 0, 6, 0, 4, 0, 0, 0, 0]

def startWeaver : Weaver :=
  { space := "s", listener := 7, kinds := .ofList [.before] }

/-- Whether a method has short code without attributes and its listeners, and nothing else. -/
def isPlain (m : Member) : Bool :=
  match m.attributes with
  | [.code ⟨_, _, code, [], []⟩, .unknown name _] =>
    code.length < 1000 && name == Listeners.attributeName
  | _ => false

theorem isPlain_eq_true (h : isPlain m = true) : ∃ maxStack maxLocals code info,
    m.attributes = [.code ⟨maxStack, maxLocals, code, [], []⟩,
      .unknown Listeners.attributeName info] ∧ code.length < 1000 := by
  unfold isPlain at h
  split at h
  case h_1 maxStack maxLocals code name info hattributes =>
    rw [Bool.and_eq_true, decide_eq_true_eq, beq_iff_eq] at h
    exact ⟨maxStack, maxLocals, code, info, h.2 ▸ hattributes, h.1⟩
  case h_2 => cases h

theorem tablesFit_of_isPlain (h : isPlain m = true) (p : Pool) : m.TablesFit p := by
  obtain ⟨maxStack, maxLocals, code, info, hattributes, hcode⟩ := isPlain_eq_true h
  have hfirst (c : CodeAttribute) (hc : m.code? = some c) : c = ⟨maxStack, maxLocals, code, [], []⟩ := by
    unfold Member.code? at hc
    rw [hattributes] at hc
    exact (Option.some.inj hc).symm
  refine ⟨?_, fun c hc => ?_, fun c hc a ha => ?_, fun c hc body hbody => ?_⟩
  · rw [Countable, hattributes]
    exact Nat.lt_of_sub_pos (by decide : 0 < 0x10000 - 2)
  · rw [hfirst c hc]
    exact Nat.zero_lt_succ _
  · rw [hfirst c hc] at ha
    cases ha
  · rw [hfirst c hc, CodeAttribute.write, Attribute.writeAll] at hbody
    cases hbody
    simp [bytesOfU2, bytesOfU4, writeCounted]
    omega

theorem written_of_isPlain (h : isPlain m = true) (hcode : ∃ i, attributeNameSlot p "Code" = .ok i)
    (hlisteners : ∃ i, attributeNameSlot p Listeners.attributeName = .ok i) :
    ∃ out, m.write p = .ok out := by
  obtain ⟨maxStack, maxLocals, code, info, hattributes, -⟩ := isPlain_eq_true h
  obtain ⟨i, hi⟩ := hcode
  obtain ⟨j, hj⟩ := hlisteners
  have hfirst : ∃ out, (Attribute.code ⟨maxStack, maxLocals, code, [], []⟩).write p = .ok out := by
    rw [Attribute.write, Attribute.writeBody, CodeAttribute.write, Attribute.writeAll]
    exact ⟨_, bind_eq_ok.2 ⟨i, hi, rfl⟩⟩
  have hsecond : ∃ out, (Attribute.unknown Listeners.attributeName info).write p = .ok out := by
    rw [Attribute.write, Attribute.writeBody]
    exact ⟨_, bind_eq_ok.2 ⟨j, hj, rfl⟩⟩
  obtain ⟨first, hfirst⟩ := hfirst
  obtain ⟨second, hsecond⟩ := hsecond
  have hboth : ∃ out, writeAttributes p m.attributes = .ok out := by
    rw [hattributes, writeAttributes_eq]
    exact ⟨_, bind_eq_ok.2 ⟨[first, second], mapM_eq_ok.2 (.cons hfirst (.cons hsecond .nil)), rfl⟩⟩
  obtain ⟨both, hboth⟩ := hboth
  exact ⟨_, bind_eq_ok.2 ⟨both, hboth, rfl⟩⟩

theorem written_of_no_attributes (h : m.attributes = []) (p : Pool) :
    ∃ out, m.write p = .ok out := by
  have hnone : ∃ out, writeAttributes p m.attributes = .ok out := by
    rw [h, writeAttributes, Attribute.writeAll]
    exact ⟨_, rfl⟩
  obtain ⟨out, hout⟩ := hnone
  exact ⟨_, bind_eq_ok.2 ⟨out, hout, rfl⟩⟩

/-- A class without attributes can be written if its constants, its fields and its methods can. -/
theorem toBytes_of_members (hattributes : c.attributes = []) (hpool : ∃ out, c.pool.write = .ok out)
    (hfields : ∀ m ∈ c.fields, ∃ out, m.write c.pool = .ok out)
    (hmethods : ∀ m ∈ c.methods, ∃ out, m.write c.pool = .ok out) : ∃ out, c.toBytes = .ok out := by
  obtain ⟨constants, hconstants⟩ := hpool
  obtain ⟨fields, hfields⟩ := mapM_ok hfields
  obtain ⟨methods, hmethods⟩ := mapM_ok hmethods
  have hrest : writeAttributes c.pool [] = .ok (bytesOfU2 0 ++ []) := by
    rw [writeAttributes, Attribute.writeAll]
    rfl
  rw [ClassFile.toBytes, hattributes]
  exact ⟨_, bind_eq_ok.2 ⟨constants, hconstants, bind_eq_ok.2 ⟨_,
    bind_eq_ok.2 ⟨fields, hfields, rfl⟩, bind_eq_ok.2 ⟨_,
    bind_eq_ok.2 ⟨methods, hmethods, rfl⟩, bind_eq_ok.2 ⟨_, hrest, rfl⟩⟩⟩⟩⟩

/-- A class without fields and attributes can be written if its constants and its methods can. -/
theorem toBytes_of_methods (hfields : c.fields = []) (hattributes : c.attributes = [])
    (hpool : ∃ out, c.pool.write = .ok out) (hwritten : ∀ m ∈ c.methods, ∃ out, m.write c.pool = .ok out) :
    ∃ out, c.toBytes = .ok out :=
  toBytes_of_members hattributes hpool (by simp [hfields]) hwritten

/-- What the class becomes: its first method is woven and its second is not, and it can be written. -/
def isWovenFirst (pool : Pool) (members : List (Member × Option String)) : Bool :=
  match members with
  | [(m, some code), (n, none)] => code == "A#m()" && isPlain m && n.attributes.isEmpty &&
    pool.write.toOption.any (fun _ => true) &&
    (attributeNameSlot pool "Code").toOption.any (fun _ => true) &&
    (attributeNameSlot pool Listeners.attributeName).toOption.any (fun _ => true)
  | _ => false

theorem isWovenFirst_eq_true {members : List (Member × Option String)}
    (h : isWovenFirst p members = true) : ∃ m n, members = [(m, some "A#m()"), (n, none)] ∧
      isPlain m = true ∧ n.attributes = [] ∧ (∃ out, p.write = .ok out) ∧
      (∃ i, attributeNameSlot p "Code" = .ok i) ∧
      ∃ i, attributeNameSlot p Listeners.attributeName = .ok i := by
  unfold isWovenFirst at h
  split at h
  case h_1 m code n =>
    simp only [Bool.and_eq_true, beq_iff_eq, List.isEmpty_iff, any_toOption, and_true] at h
    obtain ⟨⟨⟨⟨⟨rfl, hm⟩, hn⟩, hpool⟩, hcode⟩, hlisteners⟩ := h
    exact ⟨m, n, rfl, hm, hn, hpool, hcode, hlisteners⟩
  case h_2 => cases h

/-- Its first method is woven, and there is room for that. -/
theorem twoMethods_weaves : ∃ c out, ClassFile.parse twoMethods = .ok c ∧ c.PoolWhole twoMethods ∧
    (∀ m ∈ c.methods, m.rawAttribute? Listeners.attributeName = none) ∧
    startWeaver.RoomFor 0 c ["A#m()"] ∧
    startWeaver.weave 0 twoMethods ["A#m()"] = .ok out ∧ out.behaviors = ["A#m()"] := by
  have hcheck : (ClassFile.parse twoMethods).toOption.any (fun c =>
      c.fields.isEmpty && c.attributes.isEmpty &&
      c.methods.all (fun m => (m.rawAttribute? Listeners.attributeName).isNone) &&
      c.pool.constants.all (fun x => !x.2.isWide || x.1 + 1 < ClassFile.declaredCount twoMethods) &&
      (startWeaver.rewrite 0 c ["A#m()"]).toOption.any fun x => isWovenFirst x.1 x.2) := by
    decide +kernel
  obtain ⟨c, hc, hcheck⟩ := any_toOption.1 hcheck
  simp only [Bool.and_eq_true] at hcheck
  obtain ⟨⟨⟨⟨hfields, hattributes⟩, hunlisted⟩, hwide⟩, hrewrite⟩ := hcheck
  obtain ⟨⟨pool, members⟩, hrewrite, hwoven⟩ := any_toOption.1 hrewrite
  have hwhole : c.PoolWhole twoMethods := by
    intro i k hk hkwide
    have := List.all_eq_true.1 hwide _ hk
    simpa [hkwide] using this
  obtain ⟨m, n, rfl, hm, hn, hpool, hcode, hlisteners⟩ := isWovenFirst_eq_true hwoven
  have hroom : startWeaver.RoomFor 0 c ["A#m()"] := by
    intro pool' members' h r hr hsome
    cases hrewrite.symm.trans h
    rcases List.mem_pair.1 hr with rfl | rfl
    · exact tablesFit_of_isPlain hm pool
    · cases hsome
  rw [List.isEmpty_iff] at hfields hattributes
  have hwritten : ∀ r ∈ [m, n], ∃ out, r.write pool = .ok out := by
    intro r hr
    rcases List.mem_pair.1 hr with rfl | rfl
    · exact written_of_isPlain hm hcode hlisteners
    · exact written_of_no_attributes hn pool
  obtain ⟨out, hout⟩ := toBytes_of_methods (c := { c with pool, methods := [m, n] }) hfields
    hattributes hpool hwritten
  have hunlisted : ∀ m ∈ c.methods, m.rawAttribute? Listeners.attributeName = none := by
    intro m hm
    exact Option.isNone_iff_eq_none.1 (List.all_eq_true.1 hunlisted m hm)
  exact ⟨c, _, hc, hwhole, hunlisted, hroom, weave_of_rewrite hc hrewrite rfl hout, rfl⟩

/-! ## All outcomes -/

/-- All outcomes of weaving a class file whose pool is whole. If anything is woven and the tables have
room, the bytes can be read again, as the class woven; if nothing is woven they are the bytes that were
given; and a method that fails leaves nothing but its fault. -/
theorem weave_untouched (w : Weaver) (loader : Int32) (signCodes : List String)
    (hc : ClassFile.parse bytes = .ok c) (hwhole : c.PoolWhole bytes) :
    (∀ out, w.weave loader bytes signCodes = .ok out →
      (out.isModified = false → out.bytes = bytes) ∧
      (out.isModified = true → w.RoomFor loader c signCodes →
        ∃ d, ClassFile.parse out.bytes = .ok d ∧
          Rewoven signCodes w.listener c d out.behaviors)) ∧
    (∀ owner superName before m after rs p q e, c.thisClassName = .ok owner →
      c.superClassName = .ok superName → c.methods = before ++ m :: after →
      (methods (w.site loader c owner superName signCodes) before).run.run c.pool = (.ok rs, p) →
      (method (w.site loader c owner superName signCodes) m).run.run p = (.error e, q) →
      w.weave loader bytes signCodes = .error e) := by
  refine ⟨fun out h => ⟨?_, fun hmodified hroom => ?_⟩, ?_⟩
  · obtain ⟨pool, members, -, -, hsame, -⟩ := weave_eq_ok hc h
    exact hsame
  · obtain ⟨d, hd, -, hrewoven⟩ := weave_yields hc (hwhole.count_lt hc) h hroom
    exact ⟨d, hd, hrewoven⟩
  · intro owner superName before m after rs p q e howner hsuper hmethods hbefore hm
    exact weave_fails hc howner hsuper hmethods hbefore hm

theorem weave_untouched_twoMethods : ∃ c out d, ClassFile.parse twoMethods = .ok c ∧
    c.PoolWhole twoMethods ∧ startWeaver.weave 0 twoMethods ["A#m()"] = .ok out ∧
    out.behaviors = ["A#m()"] ∧ startWeaver.RoomFor 0 c ["A#m()"] ∧
    ClassFile.parse out.bytes = .ok d ∧ Rewoven ["A#m()"] 7 c d ["A#m()"] := by
  obtain ⟨c, out, hc, hwhole, -, hroom, hout, hbehaviors⟩ := twoMethods_weaves
  have hmodified : out.isModified = true := by
    rw [Woven.isModified, hbehaviors]
    rfl
  obtain ⟨d, hd, hrewoven⟩ :=
    ((weave_untouched startWeaver 0 ["A#m()"] hc hwhole).1 out hout).2 hmodified hroom
  exact ⟨c, out, d, hc, hwhole, hout, hbehaviors, hroom, hd, hbehaviors ▸ hrewoven⟩

end Weaver

end Interpose
