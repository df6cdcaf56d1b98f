import EventLoop.Proofs.Conclusion
import EventLoop.Proofs.Conservation
import EventLoop.Proofs.Delivery
import EventLoop.Proofs.Presentation
import EventLoop.Proofs.Serving
import EventLoop.Script.Run

/-! Lookups through both interfaces. Whoever waits for a lookup gets what it has found, or a fresh
cursor over this. A lookup that goes on beside the threads reports the same once it is over, unless it
is cancelled, and its handler is called with this once, inside of a call of the run family.
Main statement: `resolving_run`. -/
namespace EventLoop

variable {H : Type}

/-- The call that starts a lookup. The lookup is over after the time that it takes, if ever. -/
def Query.Report.launch (report : Query.Report) (start : Instant) (r c : Nat) (t : Task H) :
    Call H :=
  match report.outcome with
  | some (d, result) => .start r c (some (start + d)) (Outcome.ofResult result) t
  | none => .start r c none .elapsed t

/-- The operation is ready when the lookup is over, and ends with what this has found. -/
structure Operation.Awaits (o : Operation H) (report : Query.Report) (start : Instant) : Prop where
  ready : ∀ now, o.due.any (· ≤ now) = true ↔
    ∃ d result, report.outcome = some (d, result) ∧ start + d ≤ now
  outcome : ∀ d result, report.outcome = some (d, result) → o.outcome = Outcome.ofResult result

namespace Machine

variable {settings : LookupSettings} {directory : Directory} {q : Query} {start : Instant}
  {moves : List (Move H)} {o : Operation H} {v : Outcome}

theorem started_of_launch {m : Machine H} {y : Move H} {a : Act H} {report : Query.Report}
    {r c : Nat} {t : Task H} (hy : m.act? y = some a)
    (ht : a.taken = [.call (report.launch start r c t)]) :
    ∃ o, a.effect.frames = [.enrol o] ∧ o.home = c ∧ o.registry = r ∧ o.task = t ∧
      o.Awaits report start := by
  have hd := (fits_of_act? hy).deed
  rw [ht] at hd
  have he := hd.eq_step rfl
  rcases h : report.outcome with _ | ⟨d,result⟩
  · rw [Query.Report.launch,h] at he
    exact ⟨_,congrArg Effect.frames he,rfl,rfl,rfl,by simp [h],by simp [h]⟩
  · rw [Query.Report.launch,h] at he
    refine ⟨_,congrArg Effect.frames he,rfl,rfl,rfl,by simp [h],?_⟩
    intro d' result' hr
    rw [h] at hr
    cases hr
    rfl

theorem shows_of_claimed (ha : o.Awaits (q.run settings directory) start)
    (ho : o ∈ history enrolled moves) (hc : o.ticket ∈ history (claimed o.registry) moves) :
    ∃ d result, (q.run settings directory).outcome = some (d, result) ∧
      start + d ≤ (run moves).shared.now ∧ o.outcome.Shows result := by
  obtain ⟨d,result,hr,hd⟩ := (ha.ready _).1 (due_of_claimed ho hc)
  refine ⟨d,result,hr,hd,?_⟩
  rw [ha.outcome d result hr]
  exact Query.shows_ofResult hr

theorem shows_of_reported (ha : o.Awaits (q.run settings directory) start)
    (h : (o, v) ∈ history reported moves) (hc : o.ticket ∉ history (cancelled o.registry) moves)
    (hd : o ∉ history (dropped o.registry) moves) :
    ∃ d result, (q.run settings directory).outcome = some (d, result) ∧
      start + d ≤ (run moves).shared.now ∧ v.Shows result := by
  cases justified_reported h with
  | own hr hk =>
    rw [show v = o.outcome from hr]
    exact shows_of_claimed ha (enrolled_of_reported h) hk
  | aborted hr hk => exact absurd hk hc
  | refused w hr hw hk => exact absurd hk hd

theorem failed_iff_of_reported (ha : o.Awaits (q.run settings directory) start)
    (h : (o, v) ∈ history reported moves) (id : Nat) :
    (∃ why, v = .failed why) ↔ (v.cursor id).atEnd = true := by
  cases justified_reported h with
  | own hr hk =>
    obtain ⟨d,result,-,-,hs⟩ := shows_of_claimed ha (enrolled_of_reported h) hk
    rw [show v = o.outcome from hr]
    exact hs.failed_iff id
  | aborted hr hk =>
    subst hr
    exact ⟨fun _ => rfl,fun _ => ⟨.aborted,rfl⟩⟩
  | refused w hr hw hk =>
    subst hr
    exact ⟨fun _ => rfl,fun _ => ⟨w,rfl⟩⟩

theorem completes_of_started
    (hs : o ∈ history enrolled moves ∨ ∃ i, .enrol o ∈ ((run moves).thread i).frames)
    (hr : Ready o moves) (h : Served o moves) : Completes o moves := by
  obtain ho | ⟨i,hf⟩ := hs
  · exact completes_of_ready ho hr h
  · obtain ⟨fs,hfs⟩ := head_of_mem (sound_run moves i).stacked hf rfl
    exact completes_of_enrol hfs hr h

theorem reports_of_served {d : Span} {result : Except Failure Snapshot} {report : Query.Report}
    (ha : o.Awaits report start) (ho : report.outcome = some (d, result))
    (hd : start + d ≤ (run moves).shared.now)
    (hs : o ∈ history enrolled moves ∨ ∃ i, .enrol o ∈ ((run moves).thread i).frames)
    (hc : o.ticket ∉ history (cancelled o.registry) moves) (h : Served o moves) :
    ∃ us, (∀ u ∈ us, ∃ i, u = .step i) ∧
      (o, Outcome.ofResult result) ∈ history reported (moves ++ us) := by
  have hr : Ready o moves := Or.inl ((ha.ready _).2 ⟨d,result,ho,hd⟩)
  obtain ⟨us,hu,hm,hn,hk⟩ := completes_of_started hs hr h
  refine ⟨us,hu,?_⟩
  rw [completed_eq] at hm
  obtain ⟨⟨p,v⟩,hp,rfl⟩ := List.mem_map.1 hm
  cases justified_reported hp with
  | own hr hk' =>
    rw [← ha.outcome d result ho,← show v = p.outcome from hr]
    exact hp
  | aborted hr hk' => exact absurd (hk p.registry ▸ hk') hc
  | refused w hr hw hk' => exact absurd hk' hn

/-- After the moves `xs` the operation reports `v`, with which its loop accepts the handler. -/
def AnsweredAt (o : Operation H) (v : Outcome) (moves xs : List (Move H)) : Prop :=
  ∃ y ys a, moves = xs ++ y :: ys ∧ (run xs).act? y = some a ∧ a.taken = [.complete o v] ∧
    accepted o.home (run xs) a = [.task (o.task.deliver v)]

theorem AnsweredAt.append {xs : List (Move H)} (h : AnsweredAt o v moves xs) (us : List (Move H)) :
    AnsweredAt o v (moves ++ us) xs := by
  obtain ⟨y,ys,a,rfl,h⟩ := h
  exact ⟨y,ys ++ us,a,by simp,h⟩

theorem accepted_of_complete {m : Machine H} {a : Act H} (ht : a.taken = [.complete o v])
    (hc : (m.shared.loops.get o.home).closed = false) :
    accepted o.home m a = [.task (o.task.deliver v)] := by
  simp [accepted,ht,offeredBy,broughtBy,hc]

def reportedAs (o : Operation H) (m : Machine H) (a : Act H) : List (Operation H × Outcome) :=
  (reported m a).filter fun x => o.twin x.1

theorem length_reportedAs_le (o : Operation H) (moves : List (Move H)) :
    (history (reportedAs o) moves).length ≤ 1 := by
  have hh := history_hom (List.filter fun x => o.twin x.1) rfl (fun _ _ => List.filter_append ..)
    reported moves
  have hle := countP_reported_le o moves
  rw [List.countP_eq_length_filter,← hh] at hle
  exact hle

theorem reportedAs_of_complete {m : Machine H} {a : Act H} (ht : a.taken = [.complete o v]) :
    reportedAs o m a = [(o, v)] := by
  simp [reportedAs,reported,reportedBy,ht,Operation.twin]

theorem length_reportedAs_eq {xs : List (Move H)} {y : Move H} {a : Act H}
    (hy : (run xs).act? y = some a) (ht : a.taken = [.complete o v]) :
    (history (reportedAs o) xs).length = 0 := by
  have hle := length_reportedAs_le o (xs ++ [y])
  rw [history_concat,noted_of_act? hy,reportedAs_of_complete ht] at hle
  simpa using hle

theorem exists_unique_answered (h : (o, v) ∈ history reported moves)
    (hc : ((run moves).shared.loops.get o.home).closed = false) :
    ∃! xs, AnsweredAt o v moves xs := by
  obtain ⟨xs,y,ys,a,hm,hy,hx⟩ := exists_of_mem_history h
  have ht := taken_of_reported hx
  have hopen : ((run xs).shared.loops.get o.home).closed = false := by
    rw [hm,run_append] at hc
    exact open_of_after hc
  refine ⟨xs,⟨y,ys,a,hm,hy,ht,accepted_of_complete ht hopen⟩,?_⟩
  rintro xs' ⟨y',ys',a',hm',hy',ht',-⟩
  refine (prefix_unique (f := reportedAs o) (hm.symm.trans hm') hy hy' ?_ ?_ ?_).symm
  · rw [reportedAs_of_complete ht]
    exact List.cons_ne_nil _ _
  · rw [reportedAs_of_complete ht']
    exact List.cons_ne_nil _ _
  · rw [length_reportedAs_eq hy ht,length_reportedAs_eq hy' ht']

def Calls (i : Nat) (h : H) (v : Outcome) (m : Machine H) (ys : List (Move H)) : Prop :=
  ∃ below, Until (fun n => (n.thread i).frames = .call (.invoke (.body h (some v))) :: below)
    (fun n _ => (n.thread i).frames = .code (.handler (some v)) h 0 :: below) m ys

/-- After the moves `xs` a thread takes the handler as job number `k` of loop `c`, inside of a call of
the run family, and calls it with `v`. -/
def CalledAt (c : Nat) (h : H) (v : Outcome) (k : Nat) (moves xs : List (Move H)) : Prop :=
  ∃ y ys a, moves = xs ++ y :: ys ∧ (run xs).act? y = some a ∧
    (history (handedOut c) xs).length = k ∧
    handedOut c (run xs) a = [.task (.body h (some v))] ∧
    Begins c (.task (.body h (some v))) xs a ∧ Calls a.thread h v (run (xs ++ [y])) ys

theorem calls_of_begins {c : Nat} {h : H} {xs : List (Move H)} {y : Move H} {a : Act H}
    (hy : (run xs).act? y = some a) (hb : Begins c (.task (.body h (some v))) xs a)
    (ys : List (Move H)) : Calls a.thread h v (run (xs ++ [y])) ys := by
  obtain ⟨f,w,limit,ran,-,-,hf,-⟩ := hb.within
  have hm : ((run (xs ++ [y])).thread a.thread).frames =
      .call (.invoke (.body h (some v))) ::
        ([.finish c,.leave (.loop c),.drain c w limit (ran + 1)] ++ a.rest) := by
    rw [run_concat,move_of_act? hy,thread_perform_self]
    simp [hf,jobFrames,Frame.execute]
  exact ⟨_,until_of_proceeds (I := fun _ => True) [.code (.handler (some v)) h 0] rfl
    (fun _ _ h => h) (fun _ _ => rfl) (fun _ _ _ h => h) ys trivial hm⟩

theorem calledAt_iff {c k : Nat} {h : H} {xs : List (Move H)} :
    CalledAt c h v k moves xs ↔ BegunAt c (.task (.body h (some v))) k moves xs := by
  constructor
  · rintro ⟨y,ys,a,hm,hy,hl,hh,hb,-⟩
    exact ⟨y,ys,a,hm,hy,hl,hh,hb⟩
  · rintro ⟨y,ys,a,hm,hy,hl,hh,hb⟩
    exact ⟨y,ys,a,hm,hy,hl,hh,hb,calls_of_begins hy hb ys⟩

/-- The handler that loop `c` has accepted as job number `k` waits for its turn or was called with
`v`, and only once. -/
def Handled (c : Nat) (h : H) (v : Outcome) (k : Nat) (moves : List (Move H)) : Prop :=
  ((history (handedOut c) moves).length ≤ k ∧ ((run moves).shared.loops.get c).queue[
      k - (history (handedOut c) moves).length]? = some (.task (.body h (some v)))) ∨
    ∃! xs, CalledAt c h v k moves xs

theorem getElem?_accepted {h : H} {xs : List (Move H)} (ht : o.task = .body h none)
    (ha : AnsweredAt o v moves xs) :
    (history (accepted o.home) moves)[(history (accepted o.home) xs).length]? =
      some (.task (.body h (some v))) := by
  obtain ⟨y,ys,a,rfl,hy,-,hk⟩ := ha
  rw [ht,Task.deliver] at hk
  exact getElem?_history hy hk

theorem handled_of_answered {h : H} {xs : List (Move H)} (ht : o.task = .body h none)
    (ha : AnsweredAt o v moves xs) (hc : ((run moves).shared.loops.get o.home).closed = false) :
    Handled o.home h v (history (accepted o.home) xs).length moves := by
  simpa only [Handled,calledAt_iff] using waits_or_begun hc (getElem?_accepted ht ha)

theorem called_of_drain {h : H} {i ran : Nat} {w : Wait} {fs : List (Frame H)}
    (ht : o.task = .body h none) (hv : (o, v) ∈ history reported moves)
    (hc : ((run moves).shared.loops.get o.home).closed = false)
    (hs : ((run moves).shared.loops.get o.home).stopped = false)
    (hf : ((run moves).thread i).frames = .drain o.home w none ran :: fs) :
    ∃ us : List (Move H), (∀ u ∈ us, u.mover? = some i) ∧
      ∃! xs, AnsweredAt o v (moves ++ us) xs ∧
        ∃! zs, CalledAt o.home h v (history (accepted o.home) xs).length (moves ++ us) zs := by
  obtain ⟨xs,hx,-⟩ := exists_unique_answered hv hc
  obtain ⟨us,hu,ho,hb⟩ := begun_of_drain hc hs (getElem?_accepted ht hx) hf
  have hv' : (o, v) ∈ history reported (moves ++ us) := by
    rw [history_append]
    exact List.mem_append_left _ hv
  obtain ⟨xs',-,hone⟩ := exists_unique_answered hv' ho
  obtain rfl := hone xs (hx.append us)
  refine ⟨us,hu,xs,⟨hx.append us,?_⟩,fun ys hy => hone ys hy.1⟩
  simpa only [calledAt_iff] using hb

/-- What becomes of the operation that a lookup was started as. -/
structure Resolves (report : Query.Report) (start : Instant) (o : Operation H)
    (moves : List (Move H)) : Prop where
  once : (history reported moves).countP (fun x => o.twin x.1) ≤ 1
  /-- Unless it is cancelled or the reactor gives it up, it reports what the lookup has found, and
  not before the lookup is over. -/
  reports : ∀ v, (o, v) ∈ history reported moves →
    o.ticket ∉ history (cancelled o.registry) moves → o ∉ history (dropped o.registry) moves →
      ∃ d result, report.outcome = some (d, result) ∧ start + d ≤ (run moves).shared.now ∧
        v.Shows result
  /-- Once the lookup is over, steps of threads lead to the report. -/
  ends : ∀ d result, report.outcome = some (d, result) → start + d ≤ (run moves).shared.now →
    o.ticket ∉ history (cancelled o.registry) moves → Served o moves →
      ∃ us, (∀ u ∈ us, ∃ i, u = .step i) ∧
        (o, Outcome.ofResult result) ∈ history reported (moves ++ us)
  /-- Whatever it reports, the cursor is at its end just if this is a failure. -/
  tells : ∀ v id, (o, v) ∈ history reported moves →
    ((∃ why, v = .failed why) ↔ (v.cursor id).atEnd = true)
  handled : ∀ h v, o.task = .body h none → (o, v) ∈ history reported moves →
    ((run moves).shared.loops.get o.home).closed = false →
      ∃! xs, AnsweredAt o v moves xs ∧
        Handled o.home h v (history (accepted o.home) xs).length moves
  /-- It is called when a thread looks for work without a limit and the handlers ahead of it
  return. -/
  called : ∀ h v i w ran fs, o.task = .body h none → (o, v) ∈ history reported moves →
    ((run moves).shared.loops.get o.home).closed = false →
    ((run moves).shared.loops.get o.home).stopped = false →
    ((run moves).thread i).frames = .drain o.home w none ran :: fs →
      ∃ us : List (Move H), (∀ u ∈ us, u.mover? = some i) ∧
        ∃! xs, AnsweredAt o v (moves ++ us) xs ∧
          ∃! ys, CalledAt o.home h v (history (accepted o.home) xs).length (moves ++ us) ys
  /-- A look at the loop hands the handler out when it comes first. -/
  next : ∀ y a f w limit ran j, (run moves).act? y = some a → a.taken = [f] →
    f.looks? = some (o.home, w, limit, ran) → limit.any (· ≤ ran) = false →
    a.effect.frames ≠ [.awake o.home w limit ran] →
    ((run moves).shared.loops.get o.home).closed = false →
    ((run moves).shared.loops.get o.home).stopped = false →
    ((run moves).shared.loops.get o.home).queue.head? = some j →
      handedOut o.home (run moves) a = [j] ∧ Begins o.home j moves a

theorem resolves_of_launch {xs zs : List (Move H)} {y : Move H} {a : Act H}
    (hy : (run xs).act? y = some a) (hf : a.effect.frames = [.enrol o])
    (ha : o.Awaits (q.run settings directory) start) :
    Resolves (q.run settings directory) start o (xs ++ y :: zs) where
  once := countP_reported_le o _
  reports _ := shows_of_reported ha
  ends _ _ ho hd hc h :=
    reports_of_served ha ho hd (enrolled_of_put hy (hf ▸ List.mem_cons_self) zs) hc h
  tells _ id h := failed_iff_of_reported ha h id
  handled h v ht hv hc := by
    obtain ⟨xs,hx,hu⟩ := exists_unique_answered hv hc
    exact ⟨xs,⟨hx,handled_of_answered ht hx hc⟩,fun xs' h => hu xs' h.1⟩
  called _ _ _ _ _ _ ht hv hc hs hf := called_of_drain ht hv hc hs hf
  next y a f w limit ran j hy ht hl hn hw hc hs hq := by
    have hh := handedOut_of_look hy ht hl hn hw hc hs hq
    exact ⟨hh,begins_of_handed hy hh⟩

def polledLookup : List (Move Unit) :=
  [.addLoop {},.addRegistry,.spawn (),.call 0 (Query.Report.launch
    ⟨["h"],some (3, .ok ⟨[⟨⟨.v4 V4.loopback, 80⟩, "h", "80"⟩]⟩)⟩ 0 0 0 (.body () none)),
    .step 0,.step 0,.step 0,.step 0,.step 0,.step 1,.clock 3,.step 1,.step 1,.step 1,.step 1,
    .call 0 (.run 0 .poll none),.step 0,.step 0,.step 0]

example : (history reported polledLookup).map (fun x => (x.2.cursor 0).current?) =
    [some ⟨⟨.v4 V4.loopback, 80⟩, "h", "80"⟩] ∧ (history (handedOut 0) polledLookup).length = 1 ∧
      ((run polledLookup).thread 0).frames.map Frame.isCode = [true,false,false,false,true] := by
  decide

/-- The reactor of a loop runs, or it can be started. -/
def Live (c : Nat) (m : Machine H) : Prop :=
  (m.shared.loops.get c).reactor ≠ .closed ∧ ((m.shared.loops.get c).reactor = .idle →
    (m.shared.loops.get c).settings.reactor.startPanic? = none)

theorem wakes_iff {m : Machine H} {y : Move H} {a : Act H} {c : Nat} (hy : m.act? y = some a)
    (ht : a.taken = [.call (.wakeReactor c)]) :
    a.effect.frames = [.reply (.flag true)] ↔ m.Live c := by
  have hd := (fits_of_act? hy).deed
  rw [ht] at hd
  rw [hd.eq_step rfl]
  unfold Live
  cases hr : (m.shared.loops.get c).reactor with
  | closed | running => simp [Frame.step,Frame.stepCall,hr]
  | idle =>
    cases hs : (m.shared.loops.get c).settings.reactor.startPanic? with
    | none | some t => simp [Frame.step,Frame.stepCall,hr,hs]

end Machine

namespace Session

variable {settings : LookupSettings} {directory : Directory} {q : Query} {s : Session}
  {name : String} {n : Nat}

/-- The resolver of a name looks up with these settings in this directory. -/
structure Consults (s : Session) (name : String) (n : Nat) (settings : LookupSettings)
    (directory : Directory) : Prop where
  named : s.resolvers.get? name = some n
  settings : s.settings (s.directory.get n) = settings
  directory : s.directoryOf (s.directory.get n) = directory

theorem course_resolve (h : s.Consults name n settings directory) (q : Query) :
    (s.course (.resolve name q)).2 = .calls [.wakeReactor (s.directory.get n).home] := by
  simp [course,onResolver,h.named,orNone]

theorem lookupHere_eq (h : s.Consults name n settings directory) {d : Span}
    {result : Except Failure Snapshot} (hq : (q.run settings directory).outcome = some (d, result))
    (i : Nat) (r : Running) (a : Action) :
    s.lookupHere i r a name q true = (s.ask n (q.run settings directory).asked).hold i
      { r with progress :=
          .pausing a (.time (s.now + d)) (.object (Outcome.ofResult result).report) } := by
  obtain ⟨hn,rfl,rfl⟩ := h
  simp only [lookupHere,hn,lookup,hq]
  rfl

theorem course_asyncResolve (h : s.Consults name n settings directory) (q : Query) (id : String)
    (k : Option Handler) : (s.course (.asyncResolve name id q k)).2 =
      .calls [(q.run settings directory).launch s.now (s.directory.get n).registry
        (s.directory.get n).home
        (.body (.completion ⟨id, (s.directory.get n).home, s.legacy, k⟩) none)] := by
  obtain ⟨hn,rfl,rfl⟩ := h
  rcases hq : (q.run (s.settings (s.directory.get n)) (s.directoryOf (s.directory.get n))).outcome
    with _ | ⟨d,result⟩
  · simp [course,hn,lookup,Query.Report.launch,hq]
  · simp [course,hn,lookup,Query.Report.launch,hq]

/-- What the two interfaces make of one query along a run, for whoever waits for the lookup and for
the handler that is called with it. -/
structure Resolving (settings : LookupSettings) (directory : Directory) (q : Query)
    (moves : List (Move Code)) : Prop where
  wakes : ∀ xs y zs a c, moves = xs ++ y :: zs → (Machine.run xs).act? y = some a →
    a.taken = [.call (.wakeReactor c)] →
      (a.effect.frames = [.reply (.flag true)] ↔ (Machine.run xs).Live c)
  waits : ∀ (s : Session) name n, s.Consults name n settings directory →
    (s.course (.resolve name q)).2 = .calls [.wakeReactor (s.directory.get n).home] ∧
      ∀ i r a d result, (q.run settings directory).outcome = some (d, result) →
        s.lookupHere i r a name q true = (s.ask n (q.run settings directory).asked).hold i
          { r with progress :=
              .pausing a (.time (s.now + d)) (.object (Outcome.ofResult result).report) }
  answers : ∀ id d result, (q.run settings directory).outcome = some (d, result) →
    Cursor.Answers id result (Cursor.ofLookup id result)
  starts : ∀ (s : Session) name n id k, s.Consults name n settings directory →
    (s.course (.asyncResolve name id q k)).2 =
      .calls [(q.run settings directory).launch s.now (s.directory.get n).registry
        (s.directory.get n).home
        (.body (.completion ⟨id, (s.directory.get n).home, s.legacy, k⟩) none)]
  resolves : ∀ xs y zs a start r c t, moves = xs ++ y :: zs → (Machine.run xs).act? y = some a →
    a.taken = [.call ((q.run settings directory).launch start r c t)] →
      ∃ o, a.effect.frames = [.enrol o] ∧ o.home = c ∧ o.registry = r ∧ o.task = t ∧
        Machine.Resolves (q.run settings directory) start o moves

theorem resolving_run (settings : LookupSettings) (directory : Directory) (q : Query)
    (moves : List (Move Code)) : Resolving settings directory q moves where
  wakes _ _ _ _ _ _ hy ht := Machine.wakes_iff hy ht
  waits _ _ _ h := ⟨course_resolve h q,fun i r a _ _ hq => lookupHere_eq h hq i r a⟩
  answers id _ _ h := Query.answers_ofLookup h id
  starts _ _ _ id k h := course_asyncResolve h q id k
  resolves xs y zs a start r c t hm hy ht := by
    subst hm
    obtain ⟨o,hf,hc,hr,hk,ha⟩ := Machine.started_of_launch hy ht
    exact ⟨o,hf,hc,hr,hk,Machine.resolves_of_launch hy hf ha⟩

end Session
end EventLoop
