import EventLoop.Proofs.Literal

/-! When a lookup asks its directory. It asks for the very text of a host that is a name, once, and
else its outcome is the same whatever the directory would answer; a lookup times out only where the
directory does not answer in time, or says so itself. Main statement: `consults_run`. -/
namespace EventLoop

/-- An answer comes, and comes before the limit runs out if there is one. -/
def Answer.InTime (limit : Option Span) : Answer → Prop
  | .never => False
  | .after d _ => ∀ l, limit = some l → d ≤ l

namespace Query

/-- The service has a port, and the host is a name that may be looked up. -/
structure Named (q : Query) : Prop where
  service : ∃ port, Service.port? q.service q.hints.numericService = some port
  host : q.host ≠ ""
  name : ∀ ip, ¬ Denotes q.host ip
  allowed : q.hints.numericHost = false

/-- The addresses that stand for no host, those of the preferred family first. -/
def nowhere (passive preferV6 : Bool) : List Address :=
  match passive, preferV6 with
  | true, false => [.v4 V4.unspecified, .v6 V6.unspecified]
  | true, true => [.v6 V6.unspecified, .v4 V4.unspecified]
  | false, false => [.v4 V4.loopback, .v6 V6.loopback]
  | false, true => [.v6 V6.loopback, .v4 V4.loopback]

variable {settings : LookupSettings} {directory : Directory} {q : Query} {port : UInt16}
  {d : Span}

theorem ownAddresses?_eq_none : q.ownAddresses? = none ↔
    q.host ≠ "" ∧ (∀ ip, ¬ Denotes q.host ip) ∧ q.hints.numericHost = false := by
  rw [← literal?_eq_none]
  unfold ownAddresses?
  split
  · next h => simp [h]
  · next h =>
    cases literal? q.host with
    | some ip => simp
    | none => cases q.hints.numericHost <;> simp [h]

/-- A lookup asks for a name once, and for nothing else. -/
theorem asked_run (settings : LookupSettings) (directory : Directory) (q : Query) :
    (q.run settings directory).asked = [q.host] ∧ q.Named ∨
      (q.run settings directory).asked = [] ∧ ¬ q.Named := by
  unfold run
  cases hp : Service.port? q.service q.hints.numericService with
  | none =>
    refine Or.inr ⟨rfl,fun hq => ?_⟩
    obtain ⟨port,h⟩ := hq.service
    simp [hp] at h
  | some port =>
    cases ho : q.ownAddresses? with
    | some own =>
      refine Or.inr ⟨rfl,fun hq => ?_⟩
      simp [ownAddresses?_eq_none.2 ⟨hq.host,hq.name,hq.allowed⟩] at ho
    | none =>
      obtain ⟨hh,hn,ha⟩ := ownAddresses?_eq_none.1 ho
      exact Or.inl ⟨rfl,⟨port,hp⟩,hh,hn,ha⟩

theorem run_congr {x y : Directory} (h : q.Named → x q.host = y q.host) :
    q.run settings x = q.run settings y := by
  unfold run
  cases hp : Service.port? q.service q.hints.numericService with
  | none => rfl
  | some port =>
    cases ho : q.ownAddresses? with
    | some own => rfl
    | none =>
      obtain ⟨hh,hn,ha⟩ := ownAddresses?_eq_none.1 ho
      rw [h ⟨⟨port,hp⟩,hh,hn,ha⟩]

theorem await_eq_some {host : String} {limit : Option Span} {a : Answer}
    {found : Except Failure (List Address)} : await host limit a = some (d, found) ↔
      a = .after d found ∧ a.InTime limit ∨
        limit = some d ∧ ¬ a.InTime limit ∧ found = .error (.timedOut host) := by
  cases a with
  | never => cases limit <;> simp [await,Answer.InTime,eq_comm]
  | after e result =>
    cases limit with
    | none => simp [await,Answer.InTime]
    | some l =>
      by_cases h : e ≤ l
      · simp [await,Answer.InTime,h]
      · simp [await,Answer.InTime,h,eq_comm]

theorem await_eq_none {host : String} {limit : Option Span} {a : Answer} :
    await host limit a = none ↔ limit = none ∧ a = .never := by
  cases a with
  | never => cases limit <;> simp [await]
  | after e result =>
    cases limit with
    | none => simp [await]
    | some l => by_cases h : e ≤ l <;> simp [await,h]

theorem outcome_of_named (settings : LookupSettings) (directory : Directory) (h : q.Named) :
    ∃ port, (q.run settings directory).outcome =
      (await q.host (limit settings) (directory q.host)).map
        fun (d, found) => (d, found.bind (q.entries settings.preferV6 port)) := by
  obtain ⟨port,hp⟩ := h.service
  have ho := ownAddresses?_eq_none.2 ⟨h.host,h.name,h.allowed⟩
  exact ⟨port,by simp [run,hp,ho]⟩

theorem run_of_noService (h : Service.port? q.service q.hints.numericService = none) :
    q.run settings directory = ⟨[], some (0, .error (.serviceNotFound q.service))⟩ := by
  simp [run,h]

theorem arrange_nowhere (passive v6 : Bool) :
    arrange v6 (nowhere passive false) = nowhere passive v6 := by
  rw [arrange_eq]
  cases passive <;> cases v6 <;> rfl

theorem run_of_noHost (hp : Service.port? q.service q.hints.numericService = some port)
    (h : q.host = "") : q.run settings directory =
      ⟨[], some (0, .ok ⟨(nowhere q.hints.passive settings.preferV6).map (q.entry port)⟩)⟩ := by
  have ho : q.ownAddresses? = some (.ok (nowhere q.hints.passive false)) := by
    cases hpas : q.hints.passive <;> simp [ownAddresses?,h,hpas,nowhere]
  have hn : nowhere q.hints.passive false ≠ [] := by cases q.hints.passive <;> simp [nowhere]
  simp only [run,hp,ho,Except.bind,entries,if_neg hn,arrange_nowhere]
  rfl

theorem run_of_refused (hp : Service.port? q.service q.hints.numericService = some port)
    (hh : q.host ≠ "") (hn : ∀ ip, ¬ Denotes q.host ip) (hr : q.hints.numericHost = true) :
    q.run settings directory = ⟨[], some (0, .error (.hostNotFound q.host))⟩ := by
  have hl := literal?_eq_none.2 hn
  simp [run,hp,ownAddresses?,hh,hl,hr,Except.bind]

theorem outcome_of_not_named (settings : LookupSettings) (directory : Directory)
    (h : ¬ q.Named) : ∃ r, (q.run settings directory).outcome = some (0, r) ∧
      ∀ host, r ≠ .error (.timedOut host) := by
  cases hp : Service.port? q.service q.hints.numericService with
  | none => exact ⟨_,by rw [run_of_noService hp],by simp⟩
  | some port =>
    by_cases hh : q.host = ""
    · exact ⟨_,by rw [run_of_noHost hp hh],by simp⟩
    · by_cases hl : ∀ ip, ¬ Denotes q.host ip
      · have hr : q.hints.numericHost = true := by
          by_contra hr
          exact h ⟨⟨port,hp⟩,hh,hl,by simpa using hr⟩
        exact ⟨_,by rw [run_of_refused hp hh hl hr],by simp⟩
      · obtain ⟨ip,hd⟩ := not_forall_not.1 hl
        exact ⟨_,by rw [run_of_denotes hp hd],by simp⟩

/-- What decides the outcome of a lookup. -/
structure Consults (settings : LookupSettings) (q : Query) : Prop where
  /-- The directory is asked at most once, and for the text of the host. -/
  once : ∀ directory, (q.run settings directory).asked = [] ∨
    (q.run settings directory).asked = [q.host]
  asked : ∀ directory, q.host ∈ (q.run settings directory).asked ↔ q.Named
  /-- Of the directory nothing but the answer for the host matters. -/
  only : ∀ x y : Directory, x q.host = y q.host → q.run settings x = q.run settings y
  /-- Where the directory is not asked any other would do. -/
  indifferent : ¬ q.Named → ∀ x y, q.run settings x = q.run settings y
  noService : Service.port? q.service q.hints.numericService = none → ∀ directory,
    q.run settings directory = ⟨[], some (0, .error (.serviceNotFound q.service))⟩
  noHost : ∀ port, Service.port? q.service q.hints.numericService = some port → q.host = "" →
    ∀ directory, q.run settings directory =
      ⟨[], some (0, .ok ⟨(nowhere q.hints.passive settings.preferV6).map (q.entry port)⟩)⟩
  literal : ∀ port ip, Service.port? q.service q.hints.numericService = some port →
    Denotes q.host ip → ∀ directory,
      q.run settings directory = ⟨[], some (0, .ok ⟨[q.entry port ip]⟩)⟩
  refused : ∀ port, Service.port? q.service q.hints.numericService = some port →
    q.host ≠ "" → (∀ ip, ¬ Denotes q.host ip) → q.hints.numericHost = true → ∀ directory,
      q.run settings directory = ⟨[], some (0, .error (.hostNotFound q.host))⟩
  /-- A failure that the directory reports in time is the outcome. -/
  reported : ∀ directory d why, q.Named → directory q.host = .after d (.error why) →
    (directory q.host).InTime (limit settings) →
    (q.run settings directory).outcome = some (d, .error why)
  /-- When the limit has run out the lookup has timed out. -/
  late : ∀ directory l, q.Named → limit settings = some l →
    ¬ (directory q.host).InTime (limit settings) →
    (q.run settings directory).outcome = some (l, .error (.timedOut q.host))
  /-- A lookup times out at its limit, or because the directory says so in time. -/
  timedOut : ∀ directory d host,
    (q.run settings directory).outcome = some (d, .error (.timedOut host)) → q.Named ∧
      (host = q.host ∧ limit settings = some d ∧ ¬ (directory q.host).InTime (limit settings) ∨
        directory q.host = .after d (.error (.timedOut host)) ∧
          (directory q.host).InTime (limit settings))
  /-- Without a limit a lookup goes on as long as the directory does not answer. -/
  endless : ∀ directory, (q.run settings directory).outcome = none ↔
    q.Named ∧ limit settings = none ∧ directory q.host = .never

theorem consults_run (settings : LookupSettings) (q : Query) : Consults settings q where
  once directory := by
    obtain ⟨h,-⟩ | ⟨h,-⟩ := asked_run settings directory q
    · exact Or.inr h
    · exact Or.inl h
  asked directory := by
    obtain ⟨h,hn⟩ | ⟨h,hn⟩ := asked_run settings directory q <;> simp [h,hn]
  only x y h := run_congr fun _ => h
  indifferent h x y := run_congr fun hn => absurd hn h
  noService h directory := run_of_noService h
  noHost port hp h directory := run_of_noHost hp h
  literal port ip hp h directory := run_of_denotes hp h
  refused port hp hh hn hr directory := run_of_refused hp hh hn hr
  reported directory d why h ha ht := by
    obtain ⟨port,ho⟩ := outcome_of_named settings directory h
    rw [ho,await_eq_some.2 (Or.inl ⟨ha,ht⟩)]
    rfl
  late directory l h hl ht := by
    obtain ⟨port,ho⟩ := outcome_of_named settings directory h
    rw [ho,await_eq_some.2 (Or.inr ⟨hl,ht,rfl⟩)]
    rfl
  timedOut directory d host h := by
    by_cases hn : q.Named
    · obtain ⟨port,ho⟩ := outcome_of_named settings directory hn
      rw [ho] at h
      obtain ⟨⟨e,found⟩,hw,h⟩ := Option.map_eq_some_iff.1 h
      obtain ⟨rfl,he⟩ := Prod.mk.inj h
      have hf : found = .error (.timedOut host) := by
        cases found with
        | error why => exact congrArg _ (Except.error.inj he)
        | ok ips =>
          simp only [Except.bind,entries] at he
          split at he <;> cases he
      subst hf
      refine ⟨hn,?_⟩
      obtain ⟨ha,ht⟩ | ⟨hl,ht,hf⟩ := await_eq_some.1 hw
      · exact Or.inr ⟨ha,ht⟩
      · exact Or.inl ⟨by cases hf; rfl,hl,ht⟩
    · obtain ⟨r,ho,hr⟩ := outcome_of_not_named settings directory hn
      rw [ho] at h
      exact absurd (Prod.mk.inj (Option.some.inj h)).2 (hr host)
  endless directory := by
    by_cases hn : q.Named
    · obtain ⟨port,ho⟩ := outcome_of_named settings directory hn
      rw [ho,Option.map_eq_none_iff,await_eq_none]
      exact ⟨fun h => ⟨hn,h⟩,fun h => h.2⟩
    · obtain ⟨r,ho,-⟩ := outcome_of_not_named settings directory hn
      simp [ho,hn]

end Query
end EventLoop
