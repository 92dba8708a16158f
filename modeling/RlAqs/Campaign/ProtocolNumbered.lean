import RlAqs.Campaign.ProtocolSafe

/-!
While the job numbers stay below the tag of the kill message, a worker that takes a job runs it,
and stops for a kill message only.
-/

namespace RlAqs

namespace Protocol

/-- The jobs that a received result makes the master send end before the number of the
kill message. -/
def BelowPill (protocol : Protocol) : Event → Prop
  | .receiveResult reply => ∀ job ∈ protocol.results, job.destination = reply.source →
      protocol.master.jobs + protocol.master.requested job.simNum reply.isConfident ≤ killPill
  | _ => True

instance (protocol : Protocol) (event : Event) : Decidable (protocol.BelowPill event) :=
  match event with
  | .receiveResult _ => inferInstanceAs (Decidable (∀ job ∈ _, _ → _ ≤ _))
  | .receiveTask _ => inferInstanceAs (Decidable True)
  | .advance _ _ => inferInstanceAs (Decidable True)
  | .sendResult _ => inferInstanceAs (Decidable True)
  | .sendKill => inferInstanceAs (Decidable True)

structure Numbered (protocol : Protocol) : Prop where
  below : ∀ job ∈ protocol.sent, job.tag < protocol.master.jobs
  limit : protocol.master.jobs ≤ killPill
  conserved : (protocol.sent : Multiset Job) =
    tasks protocol.mail + protocol.running + protocol.answered
  kills : ∀ rank, .kill rank ∈ protocol.mail → protocol.killed = true
  stopped : ∀ message ∈ protocol.stopped, protocol.killed = true ∧
    ∃ rank, message = .kill rank
  ended : protocol.killed = true → protocol.master.areAllSignificant = true

theorem Numbered.tag_ne {protocol : Protocol} (numbered : protocol.Numbered) {job : Job}
    (member : job ∈ protocol.sent) : job.tag ≠ killPill := by
  have below := numbered.below job member
  have limit := numbered.limit
  omega

theorem Numbered.mail_sent {protocol : Protocol} (numbered : protocol.Numbered) {job : Job}
    (member : .task job ∈ protocol.mail) : job ∈ protocol.sent := by
  rw [← Multiset.mem_coe, numbered.conserved]
  exact Multiset.mem_add.mpr (.inl (Multiset.mem_add.mpr (.inl (mem_tasks.mpr member))))

theorem Numbered.running_sent {protocol : Protocol} (numbered : protocol.Numbered) {job : Job}
    (member : job ∈ protocol.running) : job ∈ protocol.sent := by
  rw [← Multiset.mem_coe, numbered.conserved]
  exact Multiset.mem_add.mpr (.inl (Multiset.mem_add.mpr (.inr (Multiset.mem_coe.mpr member))))

theorem Numbered.receiveTask {protocol next : Protocol} {rank : Nat}
    (numbered : protocol.Numbered) (stepped : protocol.receiveTask rank = some next) :
    next.Numbered := by
  obtain ⟨_, message, member, _, taken⟩ := receiveTask_cases stepped
  have split := tasks_erase member
  have kept : ∀ rank, Message.kill rank ∈ protocol.mail.erase message →
      protocol.killed = true := fun rank inside =>
    numbered.kills rank (List.mem_of_mem_erase inside)
  rcases taken with ⟨pill, rfl⟩ | ⟨job, rfl, rfl⟩
  · cases message with
    | task job => exact absurd pill (numbered.tag_ne (numbered.mail_sent member))
    | kill destination =>
        refine ⟨numbered.below, numbered.limit, ?_, kept, ?_, numbered.ended⟩
        · have own : tasks [.kill destination] = [] := rfl
          simp only
          rw [numbered.conserved, split, own, Multiset.coe_nil, zero_add]
        · intro other inside
          rcases List.mem_append.mp inside with before | last
          · exact numbered.stopped other before
          · exact ⟨numbered.kills destination member, destination, List.mem_singleton.mp last⟩
  · refine ⟨numbered.below, numbered.limit, ?_, kept, numbered.stopped, numbered.ended⟩
    have own : tasks [.task job] = [job] := rfl
    simp only [← Multiset.coe_add]
    rw [numbered.conserved, split, own]
    abel

theorem Numbered.sendResult {protocol next : Protocol} {rank : Nat}
    (numbered : protocol.Numbered) (stepped : protocol.sendResult rank = some next) :
    next.Numbered := by
  obtain ⟨_, job, member, _, rfl⟩ := sendResult_cases stepped
  refine ⟨numbered.below, numbered.limit, ?_, numbered.kills, numbered.stopped, numbered.ended⟩
  simp only [← Multiset.coe_add]
  rw [numbered.conserved, erase_add member, Multiset.coe_singleton]
  abel

theorem Numbered.receiveResult {protocol next : Protocol} {campaign : Campaign} {workers : Nat}
    {reply : Reply} (numbered : protocol.Numbered) (refines : Refines protocol campaign)
    (safe : campaign.Safe workers) (below : protocol.BelowPill (.receiveResult reply))
    (stepped : protocol.receiveResult reply = some next) : next.Numbered := by
  have going : protocol.killed = false := by
    simp only [Protocol.receiveResult] at stepped
    split at stepped
    · simp at stepped
    · rename_i open'
      simp only [not_or, Bool.not_eq_true] at open'
      exact open'.2.1
  obtain ⟨_, _, _, job, sent, source, member, round, size, shape⟩ :=
    refines.receiveResult safe stepped
  have limit := below job member source
  rw [← size, ← round.jobs] at limit
  generalize next.master = master at round shape limit
  subst shape
  refine ⟨?_, limit, ?_, ?_, numbered.stopped, ?_⟩
  · intro other inside
    simp only at inside ⊢
    rw [round.jobs]
    rcases List.mem_append.mp inside with old | new
    · have before := numbered.below other old
      omega
    · exact (round.tags other new).2
  · simp only [tasks_append, tasks_map_task, ← Multiset.coe_add]
    rw [numbered.conserved]
    abel
  · intro rank inside
    rcases List.mem_append.mp inside with old | new
    · exact numbered.kills rank old
    · simp at new
  · intro killed
    simp only [going, Bool.false_eq_true] at killed

theorem Numbered.sendKill {protocol next : Protocol} (numbered : protocol.Numbered)
    (stepped : protocol.sendKill = some next) : next.Numbered := by
  obtain ⟨ended, rfl⟩ := sendKill_cases stepped
  refine ⟨numbered.below, numbered.limit, ?_, fun _ _ => rfl, ?_, fun _ => ended⟩
  · simp only [tasks_append, tasks_map_kill, List.append_nil]
    exact numbered.conserved
  · intro message inside
    exact ⟨rfl, (numbered.stopped message inside).2⟩

theorem Numbered.step {protocol next : Protocol} {campaign : Campaign} {workers : Nat}
    {event : Event} (numbered : protocol.Numbered) (refines : Refines protocol campaign)
    (safe : campaign.Safe workers) (below : protocol.BelowPill event)
    (stepped : protocol.step event = some next) : next.Numbered := by
  cases event with
  | receiveTask rank => exact numbered.receiveTask stepped
  | advance rank found =>
      rw [advance_same stepped]
      exact ⟨numbered.below, numbered.limit, numbered.conserved, numbered.kills, numbered.stopped,
        numbered.ended⟩
  | sendResult rank => exact numbered.sendResult stepped
  | receiveResult reply => exact numbered.receiveResult refines safe below stepped
  | sendKill => exact numbered.sendKill stepped

theorem firstBatch_tag {simNum jobs count : Nat} {job : Job}
    (member : job ∈ Master.firstBatch simNum jobs count) : job.tag < jobs + count := by
  obtain ⟨i, inside, rfl⟩ := List.mem_map.mp member
  have bound := List.mem_range.mp inside
  simp only
  omega

theorem initialJobs_tag {experiments : List Experiment} {simNum jobs : Nat} {job : Job}
    (member : job ∈ Master.initialJobs experiments simNum jobs) :
    job.tag < jobs + (Master.initialJobs experiments simNum jobs).length := by
  induction experiments generalizing simNum jobs with
  | nil => simp [Master.initialJobs] at member
  | cons experiment rest ih =>
      have length : (Master.firstBatch simNum jobs experiment.simInitReplications).length =
          experiment.simInitReplications := by simp [Master.firstBatch]
      rw [Master.initialJobs, List.length_append, length]
      rcases List.mem_append.mp member with first | later
      · have bound := firstBatch_tag first
        omega
      · have bound := ih later
        omega

theorem start_jobs {runs initReplications nodes : Nat} (someRuns : 1 ≤ runs)
    (enough : runs * initReplications + 1 ≤ nodes) (small : nodes < 65536) :
    (Master.start runs initReplications nodes).1.jobs = nodes := by
  have total := (Master.setup_spec initReplications someRuns enough small).2.2
  have length := congrArg List.length
    (Master.initialJobs_destinations (Master.setup runs initReplications nodes) 1 1)
  rw [List.length_map, List.length_range', total] at length
  simp only [Master.start, length]
  omega

theorem start_numbered {sharing : Sharing} {colour : Nat → Nat} {ends : Job → Bool}
    {runs initReplications nodes : Nat} (someRuns : 1 ≤ runs)
    (enough : runs * initReplications + 1 ≤ nodes) (small : nodes < 65536) :
    (start sharing colour ends runs initReplications nodes).Numbered where
  below := fun job member => initialJobs_tag member
  limit := by
    have jobs := start_jobs someRuns enough small
    simp only [start, killPill]
    omega
  conserved := by
    simp only [start, tasks_map_task]
    simp
  kills := fun rank member => by simp [start] at member
  stopped := fun _ member => absurd member List.not_mem_nil
  ended := fun killed => by simp [start] at killed

section Received

variable {protocol : Protocol} {campaign : Campaign} {workers : Nat}
  (numbered : protocol.Numbered) (refines : Refines protocol campaign)
  (safe : campaign.Safe workers)

include numbered refines safe

theorem Numbered.none_stopped {job : Job} (member : job ∈ protocol.unanswered) :
    protocol.killed = false ∧ protocol.stopped = [] := by
  have alive : protocol.killed = false := by
    by_contra killed
    have ended := numbered.ended (by simpa using killed)
    rw [← refines.master] at ended
    rw [← refines.inFlight, (safe.finished ended).1] at member
    exact absurd member (Multiset.notMem_zero job)
  refine ⟨alive, ?_⟩
  by_contra some
  obtain ⟨message, inside⟩ := List.exists_mem_of_ne_nil _ some
  have killed := (numbered.stopped message inside).1
  rw [alive] at killed
  exact absurd killed (by simp)

theorem Numbered.received {job : Job} (member : job ∈ tasks protocol.mail) :
    ∃ next, protocol.receiveTask job.destination = some next ∧ job ∈ next.running := by
  have inMail : Message.task job ∈ protocol.mail := mem_tasks.mp member
  have unanswered := unanswered_of_mail member
  obtain ⟨alive, stopped⟩ := numbered.none_stopped refines safe unanswered
  have waits : protocol.waits job.destination = true := by
    simp only [Protocol.waits, stopped, List.all_nil, Bool.and_true, List.all_eq_true,
      decide_eq_true_eq]
    exact fun other running same => refines.apart safe member running same.symm
  cases found : protocol.mail.find? fun message => message.destination = job.destination with
  | none =>
      have none := List.find?_eq_none.mp found _ inMail
      simp [Message.destination] at none
  | some message =>
      have first := List.mem_of_find?_eq_some found
      have destination : message.destination = job.destination := by
        simpa using List.find?_some found
      cases message with
      | kill rank =>
          have killed := numbered.kills rank first
          rw [alive] at killed
          exact absurd killed (by simp)
      | task other =>
          have equal := refines.worker_unique safe (unanswered_of_mail (mem_tasks.mpr first))
            unanswered destination
          subst equal
          have tag := numbered.tag_ne (numbered.mail_sent first)
          refine ⟨{ protocol with
            mail := protocol.mail.erase (.task other)
            running := protocol.running ++ [other]
            place := Function.update protocol.place other.destination (.looking .graph) }, ?_, ?_⟩
          · simp only [Protocol.receiveTask, waits, found, Message.tag, tag, ↓reduceIte]
          · exact List.mem_append_right _ (List.mem_singleton_self other)

end Received

end Protocol

end RlAqs
