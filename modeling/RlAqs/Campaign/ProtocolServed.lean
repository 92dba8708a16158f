import RlAqs.Campaign.ProtocolJoined

/-!
While the job numbers stay below the tag of the kill message, the groups find the files they
share alike and the bodies of the jobs end, every job sent is run and answered, and a worker
stops for a kill message only. The numbers of a long campaign reach that tag.
-/

namespace RlAqs

namespace Protocol

/-- Every job sent waits, runs or is answered, once; nobody stops without a kill message, and
no job is held up: the workers can answer it without the master, and whatever they do without it
comes to an end. -/
structure Served (protocol : Protocol) : Prop where
  tags : ∀ job ∈ protocol.sent, job.tag ≠ killPill
  conserved : (protocol.sent : Multiset Job) =
    tasks protocol.mail + protocol.running + protocol.answered
  once : protocol.answered.Nodup
  stopped : ∀ message ∈ protocol.stopped, protocol.killed = true ∧
    ∃ rank, message = .kill rank
  received : ∀ job ∈ tasks protocol.mail, ∃ next,
    protocol.receiveTask job.destination = some next ∧ job ∈ next.running
  executed : ∀ job ∈ protocol.running, ∃ events next,
    (∀ event ∈ events, event.ofWorker = true) ∧ Runs.run Protocol.step protocol events = some next ∧
      job ∈ next.answered
  ends : ∀ events next, (∀ event ∈ events, event.ofWorker = true) →
    Runs.run Protocol.step protocol events = some next → events.length ≤ protocol.work

theorem run_work {protocol next : Protocol} {events : List Event}
    (own : ∀ event ∈ events, event.ofWorker = true)
    (ran : Runs.run Protocol.step protocol events = some next) : events.length ≤ protocol.work := by
  have length := Runs.run_length_le (fun _ => True) work (fun _ => 0) (fun _ _ _ _ _ _ => trivial)
    (fun _ _ _ _ worker stepped => Nat.succ_le_of_lt (step_work worker stepped)) trivial
    (Runs.along_of_forall (fun _ => own) protocol) ran
  omega

section Served

variable {missing : Nat → Site → Bool} {protocol : Protocol} {job : Job}

theorem Held.executed (held : protocol.Held missing) (member : job ∈ protocol.running)
    (ends : protocol.ends job = true) :
    ∃ events next, (∀ event ∈ events, event.ofWorker = true) ∧
      Runs.run Protocol.step protocol events = some next ∧ job ∈ next.answered := by
  apply Runs.run_reaches (fun protocol => protocol.Held missing ∧ protocol.ends job = true ∧
    (job ∈ protocol.running ∨ job ∈ protocol.answered)) _ work _ ⟨held, ends, .inl member⟩
  rintro protocol ⟨held, ends, busy⟩ unanswered
  obtain ⟨event, next, own, alike, stepped, kept⟩ :=
    held.goes_on (busy.resolve_right unanswered) ends
  have below : protocol.BelowPill event := by
    cases event with
    | receiveResult reply => cases own
    | receiveTask | advance | sendResult | sendKill => trivial
  have same := (step_same held stepped).2
  exact ⟨event, next, own, stepped, ⟨held.step below alike stepped, same ▸ ends, kept⟩,
    step_work own stepped⟩

theorem Held.served (held : protocol.Held missing)
    (ends : ∀ job ∈ protocol.sent, protocol.ends job = true) : protocol.Served := by
  obtain ⟨campaign, refines, safe⟩ := held.campaign
  refine ⟨fun _ member => held.numbered.tag_ne member, held.numbered.conserved, ?_,
    held.numbered.stopped, fun _ member => held.numbered.received refines safe member,
    fun _ member => held.executed member (ends _ (held.numbered.running_sent member)), fun _ _ own ran => run_work own ran⟩
  have distinct := safe.distinct
  rw [refines.issued] at distinct
  have nodup := distinct.of_map
  rw [← Multiset.coe_nodup, held.numbered.conserved] at nodup
  exact Multiset.coe_nodup.mp (Multiset.nodup_add.mp nodup).2.1

end Served

/-- In a run whose rounds all stay below the number of the kill message, in which the groups
find the files they share alike and the body of each job sent ends, every job is served. -/
theorem run_served (sharing : Sharing) (colour : Nat → Nat) (ends : Job → Bool)
    (missing : Nat → Site → Bool) (runs initReplications nodes : Nat) (someRuns : 1 ≤ runs)
    (someReplications : 1 ≤ initReplications) (enough : runs * initReplications + 1 ≤ nodes)
    (small : nodes < 65536) (events : List Event) (protocol : Protocol)
    (below : Runs.Along step BelowPill (start sharing colour ends runs initReplications nodes)
      events)
    (alike : Runs.Along step (Alike missing) (start sharing colour ends runs initReplications nodes)
      events)
    (ran : Runs.run step (start sharing colour ends runs initReplications nodes) events =
      some protocol)
    (ended : ∀ job ∈ protocol.sent, ends job = true) : protocol.Served := by
  obtain ⟨held, same⟩ : protocol.Held missing ∧ protocol.ends = ends :=
    Runs.run_invariant_along (fun protocol => protocol.Held missing ∧ protocol.ends = ends)
      (fun _ _ _ ⟨held, same⟩ guarded stepped =>
        ⟨held.step guarded.1 guarded.2 stepped, (step_same held stepped).2.trans same⟩)
      ⟨start_held someRuns someReplications enough small, rfl⟩ (below.and alike) ran
  exact held.served (same ▸ ended)

def graphShared : Sharing where
  graphFilename := ""
  graphSingle := true
  mfrw := false
  mfrwSingle := false

def together : List Event :=
  [.receiveTask 1, .advance 1 false, .receiveTask 2, .advance 2 false, .advance 1 false,
    .advance 2 false, .advance 1 false, .advance 1 false, .sendResult 1, .advance 2 false,
    .advance 2 false, .sendResult 2, .receiveResult ⟨2, true⟩, .receiveResult ⟨1, true⟩,
    .sendKill, .receiveTask 1, .receiveTask 2]

theorem run_served_two : ∃ protocol,
    Runs.run step (start graphShared (fun _ => 1) (fun _ => true) 1 2 3) together =
        some protocol ∧ protocol.Served := by
  obtain ⟨protocol, ran⟩ := Option.isSome_iff_exists.mp (by decide +kernel :
    (Runs.run step (start graphShared (fun _ => 1) (fun _ => true) 1 2 3) together).isSome = true)
  have below : Runs.Along step BelowPill
      (start graphShared (fun _ => 1) (fun _ => true) 1 2 3) together :=
    Runs.along_of_check (by decide +kernel)
  have alike : Runs.Along step (Alike fun _ site => site = .graph)
      (start graphShared (fun _ => 1) (fun _ => true) 1 2 3) together :=
    Runs.along_of_check (by decide +kernel)
  exact ⟨protocol, ran, run_served graphShared (fun _ => 1) (fun _ => true)
    (fun _ site => site = .graph) 1 2 3 (by decide) (by decide) (by decide) (by decide) together
    protocol below alike ran fun _ _ => rfl⟩

/-! A campaign of one experiment on one worker that is never confident. -/

def alone : Sharing where
  graphFilename := ""
  graphSingle := false
  mfrw := false
  mfrwSingle := false

structure Solo (round : Nat) (protocol : Protocol) : Prop where
  sharing : protocol.sharing = alone
  ends : ∀ job, protocol.ends job = true
  master : protocol.master =
    { experiments := [⟨round + 1, 1, 1, round, false⟩], idleNodes := [], lazyNodes := []
      jobs := round + 2 }
  killed : protocol.killed = false
  mail : protocol.mail = [.task ⟨1, round + 1, 1, round + 1⟩]
  running : protocol.running = []
  stopped : protocol.stopped = []
  results : protocol.results = []
  fault : protocol.fault = none

def soloRound : List Event :=
  [.receiveTask 1, .advance 1 true, .advance 1 true, .sendResult 1, .receiveResult ⟨1, false⟩]

def soloRounds (count : Nat) : List Event := (List.replicate count soloRound).flatten

def soloStart : Protocol := start alone (fun _ => 1) (fun _ => true) 1 1 2

theorem start_solo : Solo 0 soloStart := by
  constructor <;> intros <;> rfl

theorem Solo.round {round : Nat} {protocol : Protocol} (solo : Solo round protocol)
    (other : round + 1 ≠ killPill) :
    ∃ next, Runs.run step protocol soloRound = some next ∧ Solo (round + 1) next := by
  obtain ⟨nodes, sharing, colour, ends, master, killed, mail, running, place, calls, stopped, results, sent,
    answered, fault⟩ := protocol
  obtain ⟨rfl, ended, rfl, rfl, rfl, rfl, rfl, rfl, rfl⟩ := solo
  simp only at ended
  refine ⟨{
    nodes := nodes
    sharing := alone
    colour := colour
    ends := ends
    master := { experiments := [⟨round + 2, 1, 1, round + 1, false⟩], idleNodes := []
                lazyNodes := [], jobs := round + 3 }
    killed := false
    mail := [.task ⟨1, round + 2, 1, round + 2⟩]
    running := []
    place := Function.update place 1 .simulating
    calls := calls
    stopped := []
    results := []
    sent := sent ++ [⟨1, round + 2, 1, round + 2⟩]
    answered := answered ++ [⟨1, round + 1, 1, round + 1⟩]
    fault := none }, ?_, ?_⟩
  · simp [soloRound, Runs.run_cons, step, receiveTask, advance, move, alone, Sharing.shares,
      Site.next, sendResult, receiveResult, waits, ended,
      Message.destination, Message.tag, other, Master.areAllSignificant, Master.receive,
      Master.reallocate, Master.moreJobs, Master.sizeSub, Master.allocate, bind, Except.bind]
    omega
  · constructor <;> simp [ended]
    omega

theorem solo_run (count : Nat) (bound : count < killPill) :
    ∃ protocol, Runs.run step soloStart (soloRounds count) = some protocol ∧
      Solo count protocol := by
  induction count with
  | zero => exact ⟨_, rfl, start_solo⟩
  | succ count ih =>
      obtain ⟨protocol, ran, solo⟩ := ih (by omega)
      obtain ⟨next, stepped, kept⟩ := solo.round (by omega)
      refine ⟨next, ?_, kept⟩
      rw [soloRounds, List.replicate_succ', List.flatten_append, Runs.run_append]
      simp only [soloRounds] at ran
      simp [ran, stepped]

/-- The job with number 65535 makes the only worker stop, and the master waits for ever. -/
theorem solo_stops :
    ¬ ∀ (sharing : Sharing) (colour : Nat → Nat) (ends : Job → Bool)
        (runs initReplications nodes : Nat), 1 ≤ runs → 1 ≤ initReplications →
      runs * initReplications + 1 ≤ nodes → nodes < 65536 →
      ∀ (events : List Event) (protocol : Protocol),
        Runs.run step (start sharing colour ends runs initReplications nodes) events =
          some protocol → (∀ job ∈ protocol.sent, ends job = true) → protocol.Served := by
  intro all
  obtain ⟨protocol, ran, solo⟩ := solo_run 65534 (by decide)
  have taken : protocol.receiveTask 1 = some { protocol with
      mail := []
      stopped := [.task ⟨1, 65535, 1, 65535⟩] } := by
    simp [receiveTask, waits, solo.running, solo.stopped, solo.mail, Message.destination,
      Message.tag, killPill]
  have served := all alone (fun _ => 1) (fun _ => true) 1 1 2 (by decide) (by decide) (by decide)
    (by decide) (soloRounds 65534 ++ [.receiveTask 1]) _
    (by rw [← soloStart, Runs.run_append, ran]; simp [Runs.run_cons, step, taken]; rfl)
    fun _ _ => rfl
  have stopped := (served.stopped (.task ⟨1, 65535, 1, 65535⟩) (List.mem_singleton_self _)).2
  simp at stopped

end Protocol

end RlAqs
