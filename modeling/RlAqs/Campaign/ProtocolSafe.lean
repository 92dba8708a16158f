import RlAqs.Campaign.CampaignSafe
import RlAqs.Campaign.ProtocolCore
import Mathlib.Data.Multiset.MapFold
import Mathlib.Data.Multiset.UnionInter
import Mathlib.Tactic.Abel

/-!
The protocol refines the campaign: a job is in flight while its message, its worker
or its result has it. A worker that takes a job for the kill message keeps it in flight
for ever, which is excluded by a bound on the job numbers.
-/

namespace RlAqs

namespace Protocol

def tasks (mail : List Message) : List Job := mail.filterMap Message.job?

def unanswered (protocol : Protocol) : Multiset Job :=
  tasks protocol.mail + protocol.running + protocol.results + tasks protocol.stopped

theorem tasks_append (first second : List Message) :
    tasks (first ++ second) = tasks first ++ tasks second :=
  List.filterMap_append

theorem tasks_map_task (jobs : List Job) : tasks (jobs.map .task) = jobs := by
  induction jobs with
  | nil => rfl
  | cons job rest ih => simpa [tasks, Message.job?] using ih

theorem tasks_map_kill (ranks : List Nat) : tasks (ranks.map .kill) = [] := by
  induction ranks with
  | nil => rfl
  | cons rank rest ih => simp [tasks, Message.job?]

theorem mem_tasks {mail : List Message} {job : Job} : job ∈ tasks mail ↔ .task job ∈ mail := by
  simp only [tasks, List.mem_filterMap]
  constructor
  · rintro ⟨message, member, found⟩
    cases message with
    | task other =>
        obtain rfl : other = job := by simpa [Message.job?] using found
        exact member
    | kill rank => simp [Message.job?] at found
  · exact fun member => ⟨_, member, rfl⟩

theorem tasks_erase {mail : List Message} {message : Message} (member : message ∈ mail) :
    (tasks mail : Multiset Job) = tasks [message] + tasks (mail.erase message) := by
  have perm := (List.perm_cons_erase member).filterMap Message.job?
  rw [tasks, Multiset.coe_eq_coe.mpr perm, ← List.singleton_append, List.filterMap_append,
    ← Multiset.coe_add]
  rfl

theorem erase_add {jobs : List Job} {job : Job} (member : job ∈ jobs) :
    (jobs : Multiset Job) = {job} + (jobs.erase job : Multiset Job) := by
  rw [Multiset.coe_eq_coe.mpr (List.perm_cons_erase member), ← Multiset.cons_coe,
    Multiset.singleton_add]

structure Refines (protocol : Protocol) (campaign : Campaign) : Prop where
  master : campaign.master = protocol.master
  fault : campaign.fault = protocol.fault
  inFlight : (campaign.inFlight : Multiset Job) = protocol.unanswered
  issued : campaign.issued = protocol.sent.map fun job => (job.simNum, job.repNum)

theorem start_refines (sharing : Sharing) (colour : Nat → Nat) (ends : Job → Bool)
    (runs initReplications nodes : Nat) :
    Refines (start sharing colour ends runs initReplications nodes)
      (Campaign.start runs initReplications nodes) where
  master := rfl
  fault := rfl
  inFlight := by
    simp only [start, unanswered, tasks_map_task]
    simp [tasks, Campaign.start, Master.start]
  issued := rfl

/-! What a step can do. -/

theorem receiveTask_cases {protocol next : Protocol} {rank : Nat}
    (stepped : protocol.receiveTask rank = some next) :
    protocol.waits rank = true ∧ ∃ message ∈ protocol.mail, message.destination = rank ∧
      ((message.tag = killPill ∧
        next = { protocol with
          mail := protocol.mail.erase message
          stopped := protocol.stopped ++ [message] }) ∨
      ∃ job, message = .task job ∧
        next = { protocol with
          mail := protocol.mail.erase message
          running := protocol.running ++ [job]
          place := Function.update protocol.place rank (.looking .graph) }) := by
  simp only [receiveTask] at stepped
  split at stepped
  · rename_i waits
    refine ⟨waits, ?_⟩
    cases found : protocol.mail.find? fun message => message.destination = rank with
    | none => simp [found] at stepped
    | some message =>
        have destination : message.destination = rank := by simpa using List.find?_some found
        refine ⟨message, List.mem_of_find?_eq_some found, destination, ?_⟩
        simp only [found] at stepped
        split at stepped
        · rename_i pill
          exact .inl ⟨pill, (Option.some.inj stepped).symm⟩
        · cases message with
          | kill rank => simp at stepped
          | task job => exact .inr ⟨job, rfl, (Option.some.inj stepped).symm⟩
  · simp at stepped

theorem sendResult_cases {protocol next : Protocol} {rank : Nat}
    (stepped : protocol.sendResult rank = some next) :
    protocol.place rank = .simulating ∧ ∃ job ∈ protocol.running, job.destination = rank ∧
      next = { protocol with
        running := protocol.running.erase job
        results := protocol.results ++ [job]
        answered := protocol.answered ++ [job] } := by
  simp only [sendResult] at stepped
  split at stepped
  · simp at stepped
  · rename_i place
    cases found : protocol.running.find? fun job => job.destination = rank with
    | none => simp [found] at stepped
    | some job =>
        simp only [found] at stepped
        split at stepped
        · exact ⟨not_not.mp place, job, List.mem_of_find?_eq_some found,
            by simpa using List.find?_some found, (Option.some.inj stepped).symm⟩
        · simp at stepped

inductive Moved (protocol : Protocol) (rank : Nat) (found : Bool) : Protocol → Prop
  | miss {site : Site} (place : protocol.place rank = .looking site)
      (shares : protocol.sharing.shares site = true) (missing : found = false) :
      Moved protocol rank found (protocol.enter rank (.electing site))
  | pass {site : Site} (place : protocol.place rank = .looking site)
      (there : protocol.sharing.shares site = true → found = true) :
      Moved protocol rank found (protocol.move rank site.next)
  | elect {site : Site} (place : protocol.place rank = .electing site)
      (gathered : protocol.gathered rank = true) :
      Moved protocol rank found (protocol.enter rank (.meeting site))
  | meet {site : Site} (place : protocol.place rank = .meeting site)
      (gathered : protocol.gathered rank = true) :
      Moved protocol rank found (protocol.move rank site.next)

theorem advance_cases {protocol next : Protocol} {rank : Nat} {found : Bool}
    (stepped : protocol.advance rank found = some next) :
    (∃ job ∈ protocol.running, job.destination = rank) ∧ Moved protocol rank found next := by
  unfold advance at stepped
  split at stepped
  · cases stepped
  rename_i busy
  refine ⟨by simpa using busy, ?_⟩
  cases place : protocol.place rank with
  | looking site =>
      simp only [place] at stepped
      split at stepped
      · rename_i misses
        rw [Bool.and_eq_true, Bool.not_eq_true'] at misses
        rw [← Option.some.inj stepped]
        exact .miss place misses.1 misses.2
      · rename_i passes
        rw [← Option.some.inj stepped]
        exact .pass place fun shares => by simpa [shares] using passes
  | electing site =>
      simp only [place] at stepped
      split at stepped
      · rename_i gathered
        rw [← Option.some.inj stepped]
        exact .elect place gathered
      · cases stepped
  | meeting site =>
      simp only [place] at stepped
      split at stepped
      · rename_i gathered
        rw [← Option.some.inj stepped]
        exact .meet place gathered
      · cases stepped
  | simulating => simp [place] at stepped

theorem sendKill_cases {protocol next : Protocol} (stepped : protocol.sendKill = some next) :
    protocol.master.areAllSignificant = true ∧
      next = { protocol with
        killed := true
        mail := protocol.mail ++ (List.range' 1 (protocol.nodes - 1)).map .kill } := by
  simp only [sendKill] at stepped
  split at stepped
  · simp at stepped
  · rename_i ready
    simp only [not_or, not_not] at ready
    exact ⟨ready.2.2, (Option.some.inj stepped).symm⟩

theorem receiveTask_unanswered {protocol next : Protocol} {rank : Nat}
    (stepped : protocol.receiveTask rank = some next) :
    next.unanswered = protocol.unanswered ∧ next.master = protocol.master ∧
      next.fault = protocol.fault ∧ next.sent = protocol.sent := by
  obtain ⟨_, message, member, _, ⟨_, rfl⟩ | ⟨job, rfl, rfl⟩⟩ := receiveTask_cases stepped
  all_goals
    have split := tasks_erase member
    refine ⟨?_, rfl, rfl, rfl⟩
    simp only [unanswered, tasks_append, ← Multiset.coe_add]
    rw [split]
  · abel
  · have own : tasks [.task job] = [job] := rfl
    rw [own]
    abel

theorem sendResult_unanswered {protocol next : Protocol} {rank : Nat}
    (stepped : protocol.sendResult rank = some next) :
    next.unanswered = protocol.unanswered ∧ next.master = protocol.master ∧
      next.fault = protocol.fault ∧ next.sent = protocol.sent := by
  obtain ⟨_, job, member, _, rfl⟩ := sendResult_cases stepped
  refine ⟨?_, rfl, rfl, rfl⟩
  simp only [unanswered, ← Multiset.coe_add]
  rw [erase_add member, Multiset.coe_singleton]
  abel

theorem advance_same {protocol next : Protocol} {rank : Nat} {found : Bool}
    (stepped : protocol.advance rank found = some next) :
    next = { protocol with place := next.place, calls := next.calls } := by
  obtain ⟨_, moved⟩ := advance_cases stepped
  cases moved <;> rfl

theorem unanswered_of_mail {protocol : Protocol} {job : Job} (member : job ∈ tasks protocol.mail) :
    job ∈ protocol.unanswered := by
  simp only [unanswered, Multiset.mem_add, Multiset.mem_coe]
  exact .inl (.inl (.inl member))

theorem unanswered_of_running {protocol : Protocol} {job : Job} (member : job ∈ protocol.running) :
    job ∈ protocol.unanswered := by
  simp only [unanswered, Multiset.mem_add, Multiset.mem_coe]
  exact .inl (.inl (.inr member))

theorem unanswered_of_results {protocol : Protocol} {job : Job} (member : job ∈ protocol.results) :
    job ∈ protocol.unanswered := by
  simp only [unanswered, Multiset.mem_add, Multiset.mem_coe]
  exact .inl (.inr member)

theorem Refines.worker_unique {protocol : Protocol} {campaign : Campaign} {workers : Nat}
    (refines : Refines protocol campaign) (safe : campaign.Safe workers) {job job' : Job}
    (member : job ∈ protocol.unanswered) (member' : job' ∈ protocol.unanswered)
    (same : job.destination = job'.destination) : job = job' := by
  have nodup := safe.balanced.partition.nodup_iff.mpr List.nodup_range'
  have busy : (campaign.inFlight.map Job.destination).Nodup := (List.nodup_append.mp nodup).2.1
  rw [← refines.inFlight, Multiset.mem_coe] at member member'
  exact List.inj_on_of_nodup_map busy member member' same

theorem Refines.nodup {protocol : Protocol} {campaign : Campaign} {workers : Nat}
    (refines : Refines protocol campaign) (safe : campaign.Safe workers) :
    protocol.unanswered.Nodup := by
  have nodup := safe.balanced.partition.nodup_iff.mpr List.nodup_range'
  rw [← refines.inFlight, Multiset.coe_nodup]
  exact (List.nodup_append.mp nodup).2.1.of_map

theorem Refines.apart {protocol : Protocol} {campaign : Campaign} {workers : Nat}
    (refines : Refines protocol campaign) (safe : campaign.Safe workers) {job other : Job}
    (waiting : job ∈ tasks protocol.mail) (running : other ∈ protocol.running) :
    job.destination ≠ other.destination := by
  intro same
  obtain rfl := refines.worker_unique safe (unanswered_of_mail waiting)
    (unanswered_of_running running) same
  have separate := (Multiset.nodup_add.mp (Multiset.nodup_add.mp
    (Multiset.nodup_add.mp (refines.nodup safe)).1).1).2.2
  exact Multiset.disjoint_left.mp separate waiting running

theorem Refines.receiveResult {protocol next : Protocol} {campaign : Campaign} {workers : Nat}
    {reply : Reply} (refines : Refines protocol campaign) (safe : campaign.Safe workers)
    (stepped : protocol.receiveResult reply = some next) :
    ∃ campaign', campaign.step reply = some campaign' ∧ Refines next campaign' ∧
      ∃ job sent, job.destination = reply.source ∧ job ∈ protocol.results ∧
        Master.Round workers protocol.master (campaign.inFlight.erase job) next.master sent ∧
        sent.length = protocol.master.requested job.simNum reply.isConfident ∧
        next = { protocol with
          master := next.master
          results := protocol.results.erase job
          mail := protocol.mail ++ sent.map .task
          sent := protocol.sent ++ sent } := by
  simp only [Protocol.receiveResult] at stepped
  split at stepped
  · simp at stepped
  · rename_i going
    simp only [not_or, Bool.not_eq_true] at going
    cases found : protocol.results.find? fun job => job.destination = reply.source with
    | none => simp [found] at stepped
    | some job =>
        have member := List.mem_of_find?_eq_some found
        have source : job.destination = reply.source := by simpa using List.find?_some found
        have open' := unanswered_of_results member
        have flying : job ∈ campaign.inFlight := by
          rw [← Multiset.mem_coe, refines.inFlight]
          exact open'
        obtain ⟨master, sent, received, round, size⟩ :=
          safe.balanced.receive safe.alive flying reply.isConfident
        rw [source, refines.master] at received
        simp only [found, received] at stepped
        obtain rfl := Option.some.inj stepped
        have chosen : (campaign.inFlight.find? fun job => job.destination = reply.source) =
            some job := by
          cases other : campaign.inFlight.find? fun job => job.destination = reply.source with
          | none =>
              have none := List.find?_eq_none.mp other job flying
              simp [source] at none
          | some job' =>
              have flying' := List.mem_of_find?_eq_some other
              rw [← Multiset.mem_coe, refines.inFlight] at flying'
              have source' : job'.destination = reply.source := by
                simpa using List.find?_some other
              rw [refines.worker_unique safe open' flying' (source.trans source'.symm)]
        refine ⟨{ campaign with
          master := master
          inFlight := campaign.inFlight.erase job ++ sent
          issued := campaign.issued ++ sent.map fun job => (job.simNum, job.repNum) }, ?_,
          ⟨rfl, refines.fault, ?_, ?_⟩, job, sent, source, member, ?_, ?_, rfl⟩
        · simp only [Campaign.step, refines.fault, refines.master, going, chosen, received,
            Bool.false_eq_true, or_self, ↓reduceIte]
        · have before := refines.inFlight
          have split := erase_add member
          rw [erase_add flying] at before
          simp only [unanswered, tasks_append, tasks_map_task, ← Multiset.coe_add] at before ⊢
          rw [split] at before
          have rest : (campaign.inFlight.erase job : Multiset Job) =
              tasks protocol.mail + protocol.running + (protocol.results.erase job : Multiset Job) +
                tasks protocol.stopped := by
            apply add_left_cancel (a := ({job} : Multiset Job))
            rw [before]
            abel
          rw [rest]
          abel
        · simp only [refines.issued, List.map_append]
        · rw [← refines.master]
          exact round
        · rw [← refines.master]
          exact size

theorem Refines.step {protocol next : Protocol} {campaign : Campaign} {workers : Nat}
    {event : Event} (refines : Refines protocol campaign) (safe : campaign.Safe workers)
    (stepped : protocol.step event = some next) :
    Refines next campaign ∨
      ∃ reply campaign', campaign.step reply = some campaign' ∧ Refines next campaign' := by
  cases event with
  | receiveTask rank =>
      obtain ⟨same, master, fault, sent⟩ := receiveTask_unanswered stepped
      exact .inl ⟨by rw [master, refines.master], by rw [fault, refines.fault],
        by rw [same, refines.inFlight], by rw [sent, refines.issued]⟩
  | advance rank found =>
      rw [advance_same stepped]
      exact .inl ⟨refines.master, refines.fault, refines.inFlight, refines.issued⟩
  | sendResult rank =>
      obtain ⟨same, master, fault, sent⟩ := sendResult_unanswered stepped
      exact .inl ⟨by rw [master, refines.master], by rw [fault, refines.fault],
        by rw [same, refines.inFlight], by rw [sent, refines.issued]⟩
  | receiveResult reply =>
      obtain ⟨campaign', taken, kept, _⟩ := refines.receiveResult safe stepped
      exact .inr ⟨reply, campaign', taken, kept⟩
  | sendKill =>
      obtain ⟨_, rfl⟩ := sendKill_cases stepped
      refine .inl ⟨refines.master, refines.fault, ?_, refines.issued⟩
      rw [refines.inFlight]
      simp only [unanswered, tasks_append, tasks_map_kill, List.append_nil]

/-- Every run of the protocol is a run of the campaign. -/
theorem run_refines {sharing : Sharing} {colour : Nat → Nat} {ends : Job → Bool}
    {runs initReplications nodes : Nat} (someRuns : 1 ≤ runs)
    (someReplications : 1 ≤ initReplications) (enough : runs * initReplications + 1 ≤ nodes)
    (small : nodes < 65536) {events : List Event} {protocol : Protocol}
    (ran : Runs.run step (start sharing colour ends runs initReplications nodes) events =
      some protocol) :
    ∃ replies campaign,
      Runs.run Campaign.step (Campaign.start runs initReplications nodes) replies =
        some campaign ∧ Refines protocol campaign ∧ campaign.Safe (nodes - 1) := by
  apply Runs.run_invariant (fun protocol => ∃ replies campaign,
      Runs.run Campaign.step (Campaign.start runs initReplications nodes) replies =
        some campaign ∧ Refines protocol campaign ∧ campaign.Safe (nodes - 1)) _ _ ran
  · rintro protocol event next ⟨replies, campaign, reached, refines, safe⟩ stepped
    rcases refines.step safe stepped with kept | ⟨reply, campaign', taken, kept⟩
    · exact ⟨replies, campaign, reached, kept, safe⟩
    · refine ⟨replies ++ [reply], campaign', ?_, kept, safe.step taken⟩
      rw [Runs.run_append, reached]
      simp [Runs.run_cons, taken]
  · exact ⟨[], _, rfl, start_refines sharing colour ends runs initReplications nodes,
      Campaign.start_safe someRuns someReplications enough small⟩

end Protocol

end RlAqs
