import Interpose.Proofs.Engine.Wiring
import Interpose.Proofs.Weave.SpyClasses
/-!
# Which classes the host is asked to define

Woven code links against two classes. When a namespace is installed, the engine has the host define them
one after the other, unless it has had both defined before. A host that accepts the first class and
refuses the second leaves the engine as if it had refused both: the next time the first class is offered
again. That is the only way in which a class is offered to a host that has accepted it.

What the host is asked is told from its answers: a class is offered in a call if a refusal of it, whatever
it says, would be the reply (`Call.Offers`).

Results:
* `Call.offers_iff`: what is offered in a call.
* `tracks_play`: what the engine knows after any number of calls of what the host has accepted.
* `definesOnce_iff`: when no class is offered again.
-/

namespace Interpose

/-- The host that refuses to define a class, and otherwise answers as before. -/
def HostPolicy.against (policy : HostPolicy) (name : String) (refusal : HostError) : HostPolicy :=
  { policy with define := fun n => if n = name then some refusal else policy.define n }

namespace Engine

variable {policy : HostPolicy} {e e' : Engine} {c : Call} {config : EngineConfig} {name : String}
  {reply : Reply}

namespace Call

/-- The host is asked to define a class: if it refused, that would be the reply. -/
def Offers (c : Call) (name : String) : Prop :=
  ∀ refusal, (c.before.serve (c.policy.against name refusal) c.request).1 = .failed (.host refusal)

/-- The host is asked to define a class, and does. -/
def Accepts (c : Call) (name : String) : Prop :=
  c.Offers name ∧ c.policy.define name = none

/-- A namespace is to be installed that is not. -/
def Founds (c : Call) : Prop :=
  ∃ config, c.request = .install config ∧ c.before.installed.find? config.space = none

end Call

/-! ## Installing a namespace -/

/-- What can become of a namespace that is not installed yet. -/
inductive Founding (policy : HostPolicy) (config : EngineConfig) (e : Engine) : Reply → Engine → Prop
  /-- Both classes were defined before. -/
  | ready : e.spyDefined = true → Founding policy config e
      (.installed ⟨config.space, e.lastRealm + 1⟩) (establish config e).2
  | refused {refusal} : e.spyDefined = false → policy.define Spy.className = some refusal →
    Founding policy config e (.failed (.host refusal)) e
  /-- The host has one class now, and the engine does not know. -/
  | halfway {refusal} (dispatch) : e.spyDefined = false → policy.define Spy.className = none →
    policy.define Spy.verdictClass = some refusal →
    Founding policy config e (.failed (.host refusal)) (e.withHost (·.define Spy.className dispatch))
  | complete (dispatch verdict) : e.spyDefined = false → policy.define Spy.className = none →
    policy.define Spy.verdictClass = none →
    Founding policy config e (.installed ⟨config.space, e.lastRealm + 1⟩)
      (establish config { (e.withHost (·.define Spy.className dispatch)).withHost
        (·.define Spy.verdictClass verdict) with spyDefined := true }).2

theorem run_define_refused {refusal : HostError} (h : policy.define name = some refusal) (bytes : Bytes) :
    (define policy name bytes).run.run e = (.error (.host refusal), e) := by
  unfold define obeying
  rw [h]
  rfl

theorem run_define_accepted (h : policy.define name = none) (bytes : Bytes) :
    (define policy name bytes).run.run e = (.ok (), e.withHost (·.define name bytes)) := by
  unfold define obeying
  rw [h]
  rfl

/-- The two classes are offered in order, until one is refused. -/
theorem run_defineSpy_undefined (policy : HostPolicy) (h : e.spyDefined = false) : ∃ dispatch verdict,
    (defineSpy policy).run.run e = match policy.define Spy.className, policy.define Spy.verdictClass with
      | some refusal, _ => (.error (.host refusal), e)
      | none, some refusal => (.error (.host refusal), e.withHost (·.define Spy.className dispatch))
      | none, none => (.ok (), { (e.withHost (·.define Spy.className dispatch)).withHost
          (·.define Spy.verdictClass verdict) with spyDefined := true }) := by
  obtain ⟨dispatch, verdict, hmade⟩ := spyClasses_made
  refine ⟨dispatch, verdict, ?_⟩
  have hrun : (defineSpy policy).run.run e = ((define policy Spy.className dispatch >>= fun _ =>
      define policy Spy.verdictClass verdict >>= fun _ => pure ()) >>= fun _ =>
        modify fun e => { e with spyDefined := true } : Lifecycle Unit).run.run e := by
    unfold defineSpy
    rw [run_bind, run_get]
    dsimp only
    rw [h, if_neg Bool.false_ne_true, hmade]
    rfl
  rw [hrun, run_bind, run_bind]
  cases hfirst : policy.define Spy.className with
  | some refusal => rw [run_define_refused hfirst]
  | none =>
    rw [run_define_accepted hfirst]
    dsimp only
    rw [run_bind]
    cases hsecond : policy.define Spy.verdictClass with
    | some refusal => rw [run_define_refused hsecond]
    | none =>
      rw [run_define_accepted hsecond]
      rfl

theorem serve_install : e.serve policy (.install config) =
    (.ofResult .installed ((install policy config).run.run e).1,
      ((install policy config).run.run e).2) := rfl

theorem serve_present {r : Realm} (hr : (e.installed.find? config.space).bind e.realm = some r) :
    e.serve policy (.install config) = (.installed r.address, e) := by
  have hrun : (install policy config).run.run e = (.ok r.address, e) := by
    unfold install
    rw [run_bind, run_get]
    dsimp only
    rw [hr]
    rfl
  rw [serve_install, hrun]
  rfl

theorem serve_absent (hnew : (e.installed.find? config.space).bind e.realm = none) :
    e.serve policy (.install config) = match (defineSpy policy).run.run e with
      | (.ok _, e') => (.installed ⟨config.space, e'.lastRealm + 1⟩, (establish config e').2)
      | (.error cause, e') => (.failed cause, e') := by
  rw [serve_install]
  unfold install
  rw [run_bind, run_get]
  dsimp only
  rw [hnew]
  dsimp only
  rw [run_bind]
  obtain ⟨result, e'⟩ := (defineSpy policy).run.run e
  cases result <;> rfl

theorem install_founding (hnew : (e.installed.find? config.space).bind e.realm = none) :
    Founding policy config e (e.serve policy (.install config)).1
      (e.serve policy (.install config)).2 := by
  rw [serve_absent hnew]
  cases hspy : e.spyDefined with
  | true =>
    have hrun : (defineSpy policy).run.run e = (.ok (), e) := by
      unfold defineSpy
      rw [run_bind, run_get]
      dsimp only
      rw [if_pos hspy]
      rfl
    rw [hrun]
    exact .ready hspy
  | false =>
    obtain ⟨dispatch, verdict, hrun⟩ := run_defineSpy_undefined policy hspy
    rw [hrun]
    cases hfirst : policy.define Spy.className with
    | some refusal => exact .refused hspy hfirst
    | none =>
      cases hsecond : policy.define Spy.verdictClass with
      | some refusal => exact .halfway dispatch hspy hfirst hsecond
      | none => exact .complete dispatch verdict hspy hfirst hsecond

def firstRefusal (policy : HostPolicy) (e : Engine) : Option HostError :=
  if e.spyDefined then none
  else (policy.define Spy.className).or (policy.define Spy.verdictClass)

/-- Installing a namespace fails exactly with the first refusal. -/
theorem Founding.failed_iff (h : Founding policy config e reply e') {refusal : HostError} :
    reply = .failed (.host refusal) ↔ firstRefusal policy e = some refusal := by
  cases h with
  | ready hspy => simp [firstRefusal, hspy]
  | refused hspy hfirst => simp [firstRefusal, hspy, hfirst]
  | halfway dispatch hspy hfirst hsecond => simp [firstRefusal, hspy, hfirst, hsecond]
  | complete dispatch verdict hspy hfirst hsecond => simp [firstRefusal, hspy, hfirst, hsecond]

/-! ## What is offered -/

theorem Call.not_offers (reply : Reply) (h : ∀ refusal,
    (c.before.serve (c.policy.against name refusal) c.request).1 = reply) : ¬ c.Offers name := by
  intro hoffers
  have hsame : (Reply.failed (.host ⟨"", ""⟩)) = .failed (.host ⟨"", "refused"⟩) :=
    ((hoffers _).symm.trans (h _)).trans ((h _).symm.trans (hoffers _))
  exact absurd (LifecycleError.host.inj (Reply.failed.inj hsame)) (by decide)

/-- Removing transformers has nothing to do with classes. -/
theorem detachAll_against (refusal : HostError) (removed : List (Int32 × Nat)) :
    detachAll (policy.against name refusal) removed = detachAll policy removed := by
  induction removed with
  | nil => rfl
  | cons x removed ih =>
    unfold detachAll
    rw [ih]
    rfl

/-- Unless a namespace is to be installed that is not, nothing is offered. -/
theorem serve_against {request : Request} (hknown : ∀ config, request = .install config →
      (e.installed.find? config.space).bind e.realm ≠ none) (refusal : HostError) :
    e.serve (policy.against name refusal) request = e.serve policy request := by
  cases request with
  | install config =>
    obtain ⟨r, hr⟩ := Option.ne_none_iff_exists'.1 (hknown config rfl)
    rw [serve_present hr, serve_present hr]
  | uninstall space =>
    have huninstall : uninstall (policy.against name refusal) space = uninstall policy space := by
      unfold uninstall shutdown
      simp only [detachAll_against]
    unfold serve
    simp only [huninstall]
  | watch key matcher listener kinds => rfl
  | unwatch key id => rfl
  | dispatch d => rfl

theorem Wired.bind_realm_eq_none (h : e.Wired) {space : String} :
    (e.installed.find? space).bind e.realm = none ↔ e.installed.find? space = none := by
  constructor
  · intro hnone
    cases hkey : e.installed.find? space with
    | none => rfl
    | some key =>
      obtain ⟨r, hr, -⟩ := h.current space key hkey
      rw [hkey] at hnone
      cases hr.symm.trans hnone
  · intro hnone
    rw [hnone]
    rfl

theorem against_self (refusal : HostError) : (policy.against name refusal).define name = some refusal :=
  if_pos rfl

theorem against_ne {other : String} (h : other ≠ name) (refusal : HostError) :
    (policy.against name refusal).define other = policy.define other :=
  if_neg h

theorem verdictClass_ne : Spy.verdictClass ≠ Spy.className := by decide

/-- Which classes the first refusal can be about. -/
theorem firstRefusal_against_iff :
    (∀ refusal, firstRefusal (policy.against name refusal) e = some refusal) ↔
      e.spyDefined = false ∧ (name = Spy.className ∨
        name = Spy.verdictClass ∧ policy.define Spy.className = none) := by
  constructor
  · intro h
    have hone := h ⟨"", ""⟩
    have hother := h ⟨"", "refused"⟩
    cases hspy : e.spyDefined with
    | true => simp [firstRefusal, hspy] at hone
    | false =>
      refine ⟨rfl, ?_⟩
      by_cases hfirst : name = Spy.className
      · exact .inl hfirst
      by_cases hsecond : name = Spy.verdictClass
      · refine .inr ⟨hsecond, ?_⟩
        cases hdefine : policy.define Spy.className with
        | none => rfl
        | some cause =>
          simp [firstRefusal, hspy, against_ne (Ne.symm hfirst), hdefine] at hone hother
          exact absurd (hone.symm.trans hother) (by decide)
      · simp only [firstRefusal, hspy, against_ne (Ne.symm hfirst), against_ne (Ne.symm hsecond)]
          at hone hother
        exact absurd (hone.symm.trans hother) (by decide)
  · rintro ⟨hspy, rfl | ⟨rfl, hdefine⟩⟩ refusal
    · simp [firstRefusal, hspy, against_self]
    · simp [firstRefusal, hspy, against_self, against_ne verdictClass_ne.symm, hdefine]

theorem Call.Founds.founding (h : c.before.Wired) (hc : c.Founds) : ∃ config, ∀ policy,
    Founding policy config c.before (c.before.serve policy c.request).1
      (c.before.serve policy c.request).2 := by
  obtain ⟨config, hrequest, hnew⟩ := hc
  rw [hrequest]
  exact ⟨config, fun _ => install_founding (h.bind_realm_eq_none.2 hnew)⟩

theorem Call.Founds.step {x : HostPolicy × Request} (h : e.Wired) (hc : (e.call x).Founds) :
    ∃ config, Founding x.1 config e (e.call x).reply (e.call x).after := by
  obtain ⟨config, hfounding⟩ := hc.founding (c := e.call x) h
  exact ⟨config, hfounding x.1⟩

theorem Call.serve_of_not_founds (h : c.before.Wired) (hc : ¬ c.Founds) (refusal : HostError) :
    c.before.serve (c.policy.against name refusal) c.request = c.before.serve c.policy c.request :=
  serve_against (fun config hrequest hnone =>
    hc ⟨config, hrequest, h.bind_realm_eq_none.1 hnone⟩) refusal

/-- What the host is asked to define in a call. The class of verdicts comes second. -/
theorem Call.offers_iff (h : c.before.Wired) : c.Offers name ↔
    c.Founds ∧ c.before.spyDefined = false ∧ (name = Spy.className ∨
      name = Spy.verdictClass ∧ c.policy.define Spy.className = none) := by
  by_cases hfounds : c.Founds
  case neg =>
    refine iff_of_false (not_offers (c.before.serve c.policy c.request).1 fun refusal => ?_)
      fun hc => hfounds hc.1
    exact congrArg Prod.fst (serve_of_not_founds h hfounds refusal)
  obtain ⟨config, hfounding⟩ := hfounds.founding h
  rw [← firstRefusal_against_iff, and_iff_right hfounds]
  exact forall_congr' fun refusal => (hfounding _).failed_iff

/-- What the host accepts in a call: the first class, or both. -/
theorem Call.accepts_iff (h : c.before.Wired) : c.Accepts name ↔
    c.Founds ∧ c.before.spyDefined = false ∧ c.policy.define Spy.className = none ∧
      (name = Spy.className ∨ name = Spy.verdictClass ∧ c.policy.define Spy.verdictClass = none) := by
  rw [Accepts, offers_iff h]
  constructor
  · rintro ⟨⟨hfounds, hspy, rfl | ⟨rfl, hfirst⟩⟩, hname⟩
    · exact ⟨hfounds, hspy, hname, .inl rfl⟩
    · exact ⟨hfounds, hspy, hfirst, .inr ⟨rfl, hname⟩⟩
  · rintro ⟨hfounds, hspy, hfirst, rfl | ⟨rfl, hname⟩⟩
    · exact ⟨⟨hfounds, hspy, .inl rfl⟩, hfirst⟩
    · exact ⟨⟨hfounds, hspy, .inr ⟨rfl, hfirst⟩⟩, hname⟩

/-- A host that accepts the class of verdicts has both classes. -/
theorem Call.Accepts.dispatch (h : c.before.Wired) (hc : c.Accepts Spy.verdictClass) :
    c.Accepts Spy.className := by
  obtain ⟨hfounds, hspy, hfirst, -⟩ := (accepts_iff h).1 hc
  exact (accepts_iff h).2 ⟨hfounds, hspy, hfirst, .inl rfl⟩

/-! ## What the engine knows of it -/

def definedNames (e : Engine) : List String :=
  e.host.defined.map Prod.fst

theorem definedNames_establish : (establish config e).2.definedNames = e.definedNames := rfl

theorem definedNames_define (bytes : Bytes) :
    (e.withHost (·.define name bytes)).definedNames = e.definedNames ++ [name] := by
  simp [definedNames, withHost, Host.define]

theorem removing_defined (removed : List (Int32 × Nat)) (host : Host) :
    (Host.removing policy removed host).defined = host.defined := by
  induction removed generalizing host with
  | nil => rfl
  | cons x removed ih =>
    change (Host.removing policy removed (if (policy.remove x.1).isNone then _ else host)).defined = _
    rw [ih]
    split <;> rfl

/-- What a request leaves alone unless it installs a new namespace. -/
theorem Effect.kept {request : Request} (h : Effect policy e request reply e')
    (hknown : ∀ config, request = .install config →
      (e.installed.find? config.space).bind e.realm ≠ none) :
    e'.spyDefined = e.spyDefined ∧ e'.definedNames = e.definedNames ∧
      ∀ space key, e'.installed.find? space = some key → e.installed.find? space = some key := by
  cases h with
  | present | absent | closed | unknown | dispatched => exact ⟨rfl, rfl, fun _ _ h => h⟩
  | unprepared _ _ hnew | established _ hnew => exact absurd hnew (hknown _ rfl)
  | @uninstalled gone key refusal hkey =>
    refine ⟨rfl, congrArg (List.map Prod.fst) (removing_defined _ e.host), fun space k hk => ?_⟩
    change (e.installed.erase gone).find? space = some k at hk
    rw [Table.find?_erase] at hk
    split at hk
    · cases hk
    · exact hk
  | refused | watched => exact ⟨rfl, rfl, fun _ _ h => h⟩
  | unwatched =>
    exact ⟨rfl, congrArg (List.map Prod.fst) (removing_defined _ e.host), fun _ _ h => h⟩

/-- A new namespace: the host has the classes that it has accepted, and the engine knows of both only. -/
theorem Founding.defined (h : Founding policy config e reply e') :
    (e'.spyDefined = true ↔ e.spyDefined = true ∨
      policy.define Spy.className = none ∧ policy.define Spy.verdictClass = none) ∧
    (∃ names, e'.definedNames = e.definedNames ++ names ∧ names.Nodup ∧ ∀ name, name ∈ names ↔
      e.spyDefined = false ∧ policy.define Spy.className = none ∧
        (name = Spy.className ∨ name = Spy.verdictClass ∧ policy.define Spy.verdictClass = none)) ∧
    ∀ space key, e'.installed.find? space = some key →
      e.installed.find? space = some key ∨ e'.spyDefined = true := by
  cases h with
  | ready hspy =>
    refine ⟨iff_of_true hspy (.inl hspy), ⟨[], ?_, .nil, fun name => ?_⟩, fun _ _ _ => .inr hspy⟩
    · rw [definedNames_establish, List.append_nil]
    · simp [hspy]
  | refused hspy hfirst =>
    refine ⟨?_, ⟨[], (List.append_nil _).symm, .nil, fun name => ?_⟩, fun _ _ hk => .inl hk⟩ <;>
      simp [hfirst]
  | halfway dispatch hspy hfirst hsecond =>
    refine ⟨?_, ⟨[Spy.className], definedNames_define dispatch, List.nodup_singleton _, fun name => ?_⟩,
      fun _ _ hk => .inl hk⟩
    · simp [withHost, hsecond]
    · simp [hspy, hfirst, hsecond]
  | complete dispatch verdict hspy hfirst hsecond =>
    refine ⟨iff_of_true rfl (.inr ⟨hfirst, hsecond⟩), ⟨[Spy.className, Spy.verdictClass], ?_, ?_,
      fun name => ?_⟩, fun _ _ _ => .inr rfl⟩
    · rw [List.append_cons, ← definedNames_define dispatch, ← definedNames_define verdict]
      rfl
    · decide
    · simp [hspy, hfirst, hsecond]

/-- What a call changes of what is defined, and of what the engine knows of it. -/
structure Call.Recorded (c : Call) : Prop where
  both : c.after.spyDefined = true ↔ c.before.spyDefined = true ∨
    c.Accepts Spy.className ∧ c.Accepts Spy.verdictClass
  defined : ∃ names, c.after.definedNames = c.before.definedNames ++ names ∧ names.Nodup ∧
    ∀ name, name ∈ names ↔ c.Accepts name
  installed : ∀ space key, c.after.installed.find? space = some key →
    c.before.installed.find? space = some key ∨ c.after.spyDefined = true

theorem recorded_call (h : e.Wired) (x : HostPolicy × Request) : (e.call x).Recorded := by
  by_cases hfounds : (e.call x).Founds
  case neg =>
    have hnothing (name : String) : ¬ (e.call x).Accepts name := fun hc =>
      hfounds ((Call.offers_iff h).1 hc.1).1
    obtain ⟨hspy, hdefined, hinstalled⟩ := (call_effect e x).kept fun config hrequest hnone =>
      hfounds ⟨config, hrequest, h.bind_realm_eq_none.1 hnone⟩
    refine ⟨?_, ⟨[], ?_, .nil, fun name => iff_of_false List.not_mem_nil (hnothing name)⟩,
      fun space key hk => .inl (hinstalled space key hk)⟩
    · rw [hspy, or_iff_left fun hc => hnothing _ hc.1]
      rfl
    · rw [hdefined, List.append_nil]
      rfl
  obtain ⟨config, hstep⟩ := hfounds.step h
  obtain ⟨hboth, ⟨names, hnames, hnodup, hmem⟩, hinstalled⟩ := hstep.defined
  have haccepts (name : String) : (e.call x).Accepts name ↔ e.spyDefined = false ∧
      x.1.define Spy.className = none ∧
        (name = Spy.className ∨ name = Spy.verdictClass ∧ x.1.define Spy.verdictClass = none) :=
    (Call.accepts_iff (c := e.call x) h).trans (and_iff_right hfounds)
  refine ⟨hboth.trans ?_, ⟨names, hnames, hnodup, fun name => (hmem name).trans (haccepts name).symm⟩,
    hinstalled⟩
  change e.spyDefined = true ∨ _ ↔ e.spyDefined = true ∨ _
  rw [haccepts, haccepts]
  cases e.spyDefined <;> simp [verdictClass_ne]

/-- What the engine knows after some calls of what the host has accepted. -/
structure Tracks (calls : List Call) (e : Engine) : Prop where
  wired : e.Wired
  both : e.spyDefined = true ↔ ∃ c ∈ calls, c.Accepts Spy.className ∧ c.Accepts Spy.verdictClass
  installed : ∀ space key, e.installed.find? space = some key → e.spyDefined = true

theorem exists_mem_concat {calls : List Call} {p : Call → Prop} :
    (∃ d ∈ calls ++ [c], p d) ↔ (∃ d ∈ calls, p d) ∨ p c := by
  simp [or_and_right, exists_or]

theorem tracks_new : Tracks [] {} where
  wired := wired_new
  both := iff_of_false Bool.false_ne_true (by simp)
  installed _ _ h := nomatch h

theorem Tracks.call {calls : List Call} (h : Tracks calls e) (x : HostPolicy × Request) :
    Tracks (calls ++ [e.call x]) (e.call x).after := by
  have hrecorded := recorded_call h.wired x
  refine ⟨h.wired.effect (call_effect e x), ?_, fun space key hk => ?_⟩
  · rw [hrecorded.both, exists_mem_concat]
    exact or_congr h.both Iff.rfl
  · rcases hrecorded.installed space key hk with hk | hspy
    · exact hrecorded.both.2 (.inl (h.installed space key hk))
    · exact hspy

theorem tracks_play (requests : List (HostPolicy × Request)) :
    Tracks (play requests).1 (play requests).2 :=
  play_induction tracks_new (fun _ _ x h => h.call x) requests

/-! ## Once -/

/-- What is offered in the next call was not accepted in an earlier one. -/
def DefinesOnce (earlier : List (HostPolicy × Request)) (x : HostPolicy × Request) : Prop :=
  ∀ name, (∃ d ∈ (play earlier).1, d.Accepts name) → ¬ ((play earlier).2.call x).Offers name

theorem before_wired {requests : List (HostPolicy × Request)} {d : Call} (hd : d ∈ (play requests).1) :
    d.before.Wired := by
  obtain ⟨earlier, x, -, -, rfl⟩ := mem_play hd
  exact (tracks_play earlier).wired

/-- What is offered in the next call, told from the calls before. -/
theorem offers_play_iff (earlier : List (HostPolicy × Request)) (x : HostPolicy × Request) (name : String) :
    ((play earlier).2.call x).Offers name ↔ ((play earlier).2.call x).Founds ∧
      (∀ d ∈ (play earlier).1, ¬ d.Accepts Spy.verdictClass) ∧
      (name = Spy.className ∨ name = Spy.verdictClass ∧ x.1.define Spy.className = none) := by
  have htracks := tracks_play earlier
  have hspy : ((play earlier).2.call x).before.spyDefined = false ↔
      ∀ d ∈ (play earlier).1, ¬ d.Accepts Spy.verdictClass := by
    change (play earlier).2.spyDefined = false ↔ _
    rw [← Bool.not_eq_true, htracks.both, not_exists]
    refine forall_congr' fun d => not_and.trans (imp_congr_right fun hd => not_congr ?_)
    exact ⟨And.right, fun hc => ⟨hc.dispatch (before_wired hd), hc⟩⟩
  rw [Call.offers_iff (c := (play earlier).2.call x) htracks.wired, hspy]
  rfl

theorem ofRefusal_ne_installed (refusal : Option HostError) (address : RealmAddress) :
    Reply.ofRefusal refusal ≠ .installed address := by
  cases refusal <;> exact nofun

/-- A namespace that is reported as installed is. -/
theorem Effect.installed {request : Request} {address : RealmAddress}
    (h : Effect policy e request (.installed address) e') :
    ∃ space key, e'.installed.find? space = some key := by
  generalize hreply : Reply.installed address = reply at h
  cases h with
  | @present config key r hkey hr => exact ⟨config.space, key, hkey⟩
  | @established config defined hnew =>
    exact ⟨config.space, e.realmCount + 1, (Table.find?_insert ..).trans (if_pos rfl)⟩
  | uninstalled | unwatched => exact absurd hreply.symm (ofRefusal_ne_installed _ address)
  | _ => cases hreply

/-- A class that the host has accepted is offered again exactly if a new namespace is installed after it
has accepted the class with the dispatch methods, and never the class of verdicts. No namespace is reported
as installed before the host has accepted both. And what the host defines is what it has accepted, each
class once. -/
theorem definesOnce_iff (earlier : List (HostPolicy × Request)) (x : HostPolicy × Request) :
    (DefinesOnce earlier x ↔ ¬ (((play earlier).2.call x).Founds ∧
      (∃ d ∈ (play earlier).1, d.Accepts Spy.className) ∧
      ∀ d ∈ (play earlier).1, ¬ d.Accepts Spy.verdictClass)) ∧
    (∀ address, ((play earlier).2.call x).reply = .installed address →
      ∃ d ∈ (play (earlier ++ [x])).1, d.Accepts Spy.className ∧ d.Accepts Spy.verdictClass) ∧
    ∃ names, (play (earlier ++ [x])).2.definedNames = (play earlier).2.definedNames ++ names ∧
      names.Nodup ∧ ∀ name, name ∈ names ↔ ((play earlier).2.call x).Accepts name := by
  have hoffers := offers_play_iff earlier x
  rw [play_concat]
  refine ⟨⟨?_, ?_⟩, fun address hreply => ?_, (recorded_call (tracks_play earlier).wired x).defined⟩
  · rintro honce ⟨hfounds, haccepted, hnever⟩
    exact honce _ haccepted ((hoffers _).2 ⟨hfounds, hnever, .inl rfl⟩)
  · rintro hnot name ⟨d, hd, haccepts⟩ hoffered
    obtain ⟨hfounds, hnever, rfl | ⟨rfl, -⟩⟩ := (hoffers name).1 hoffered
    · exact hnot ⟨hfounds, ⟨d, hd, haccepts⟩, hnever⟩
    · exact hnever d hd haccepts
  · have htracks := (tracks_play earlier).call x
    obtain ⟨space, key, hkey⟩ := (hreply ▸ call_effect (play earlier).2 x).installed
    exact htracks.both.1 (htracks.installed space key hkey)

/-! ### Trying again -/

/-- A request that was refused can be made again. -/
theorem Call.Founds.again {request : Request} (h : e.Wired) (hc : (e.call (policy, request)).Founds)
    {refusal : HostError} (hrefusal : firstRefusal policy e = some refusal) (policy' : HostPolicy) :
    ((e.call (policy, request)).after.call (policy', request)).Founds := by
  obtain ⟨config, hstep⟩ := hc.step h
  have hinstalled : (e.call (policy, request)).after.installed = e.installed := by
    have hreply := hstep.failed_iff.2 hrefusal
    generalize (e.call (policy, request)).reply = reply at hstep hreply
    generalize (e.call (policy, request)).after = e' at hstep
    cases hstep with
    | refused | halfway => rfl
    | ready | complete => cases hreply
  obtain ⟨config, hrequest, hnew⟩ := hc
  exact ⟨config, hrequest, hinstalled ▸ hnew⟩

def withoutClass (name : String) : HostPolicy :=
  HostPolicy.against {} name ⟨"define", "refused"⟩

theorem not_accepts_withoutClass {request : Request} : ¬ (e.call (withoutClass name, request)).Accepts name := by
  intro haccepts
  cases (against_self _).symm.trans haccepts.2

theorem founds_new (policy : HostPolicy) : (({} : Engine).call (policy, .install {})).Founds :=
  ⟨{}, rfl, rfl⟩

theorem founds_withoutClass (hname : name = Spy.className ∨ name = Spy.verdictClass) :
    ((({} : Engine).call (withoutClass name, .install {})).after.call ({}, .install {})).Founds := by
  have hrefusal : firstRefusal (withoutClass name) {} = some ⟨"define", "refused"⟩ := by
    rcases hname with rfl | rfl <;> decide
  exact (founds_new _).again wired_new hrefusal {}

theorem calls_singleton (x : HostPolicy × Request) : (play [x]).1 = [({} : Engine).call x] :=
  congrArg Prod.fst (play_concat [] x)

theorem engine_singleton (x : HostPolicy × Request) : (play [x]).2 = (({} : Engine).call x).after :=
  congrArg Prod.snd (play_concat [] x)

/-- A host that has accepted the class with the dispatch methods and refused the class of verdicts is
offered the first again. -/
theorem not_definesOnce_verdictRefused :
    ¬ DefinesOnce [(withoutClass Spy.verdictClass, .install {})] ({}, .install {}) := by
  intro honce
  have haccepts : (({} : Engine).call (withoutClass Spy.verdictClass, .install {})).Accepts Spy.className :=
    (Call.accepts_iff wired_new).2 ⟨founds_new _, rfl, by decide, .inl rfl⟩
  have hoffers := offers_play_iff [(withoutClass Spy.verdictClass, .install {})] ({}, .install {})
    Spy.className
  rw [DefinesOnce, calls_singleton, engine_singleton] at honce
  rw [calls_singleton, engine_singleton, List.forall_mem_singleton] at hoffers
  exact honce _ ⟨_, List.mem_singleton_self _, haccepts⟩
    (hoffers.2 ⟨founds_withoutClass (.inr rfl), not_accepts_withoutClass, .inl rfl⟩)

/-- A host that has refused the first of the classes is offered both again, and has both when the
namespace is reported as installed. -/
theorem definesOnce_dispatchRefused :
    DefinesOnce [(withoutClass Spy.className, .install {})] ({}, .install {}) ∧
    ∃ address, ((play [(withoutClass Spy.className, .install {})]).2.call ({}, .install {})).reply =
        .installed address ∧
      ∃ d ∈ (play [(withoutClass Spy.className, .install {}), ({}, .install {})]).1,
        d.Accepts Spy.className ∧ d.Accepts Spy.verdictClass := by
  obtain ⟨honce, hinstalled, -⟩ := definesOnce_iff [(withoutClass Spy.className, .install {})]
    ({}, .install {})
  have hfounds := founds_withoutClass (.inl rfl)
  rw [← engine_singleton] at hfounds
  obtain ⟨config, hstep⟩ := hfounds.step (tracks_play _).wired
  have hreply : ∃ address, ((play [(withoutClass Spy.className, .install {})]).2.call
      ({}, .install {})).reply = .installed address := by
    generalize (Engine.call _ _).after = e', (Engine.call _ _).reply = reply at hstep ⊢
    cases hstep with
    | ready | complete => exact ⟨_, rfl⟩
    | refused _ hfirst => cases hfirst
    | halfway _ _ _ hsecond => cases hsecond
  obtain ⟨address, hreply⟩ := hreply
  refine ⟨honce.2 ?_, address, hreply, hinstalled address hreply⟩
  rintro ⟨-, hsome, -⟩
  rw [calls_singleton] at hsome
  obtain ⟨d, hd, haccepts⟩ := hsome
  exact not_accepts_withoutClass (List.mem_singleton.1 hd ▸ haccepts)

end Engine

end Interpose
