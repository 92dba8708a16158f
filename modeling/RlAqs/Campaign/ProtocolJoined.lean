import RlAqs.Campaign.ProtocolNumbered
import Mathlib.Data.Finset.Max

/-!
The collective operations of the groups. Where the workers of a group find the files they share
missing together or not at all, all of them enter the same operations, and whoever waits in one
waits for somebody who can go on.
-/

namespace RlAqs

def Site.before (joins : Site → Bool) : Site → Nat
  | .graph => 0
  | .mfrw => if joins .graph then 2 else 0

def Site.total (joins : Site → Bool) : Nat :=
  Site.before joins .mfrw + if joins .mfrw then 2 else 0

namespace Place

def entered (joins : Site → Bool) : Place → Nat
  | looking site => site.before joins
  | electing site => site.before joins + 1
  | meeting site => site.before joins + 2
  | simulating => Site.total joins

def site? : Place → Option Site
  | looking site => some site
  | _ => none

def joined? : Place → Option Site
  | electing site => some site
  | meeting site => some site
  | _ => none

def rest : Place → Nat
  | looking .graph => 6
  | electing .graph => 5
  | meeting .graph => 4
  | looking .mfrw => 3
  | electing .mfrw => 2
  | meeting .mfrw => 1
  | simulating => 0

theorem entered_next {joins : Site → Bool} (site : Site) :
    entered joins site.next = site.before joins + if joins site then 2 else 0 := by
  cases site <;> simp [Site.next, entered, Site.total, Site.before]

@[simp] theorem joined_next (site : Site) : site.next.joined? = none := by cases site <;> rfl

theorem entered_le_total {joins : Site → Bool} {place : Place}
    (allowed : ∀ site ∈ place.joined?, joins site = true) :
    entered joins place ≤ Site.total joins := by
  cases place with
  | looking site => cases site <;> simp [entered, Site.total, Site.before]
  | electing site =>
      have joins := allowed site rfl
      cases site <;> simp [entered, Site.total, Site.before, joins]
      omega
  | meeting site =>
      have joins := allowed site rfl
      cases site <;> simp [entered, Site.total, Site.before, joins]
  | simulating => exact Nat.le_refl _

end Place

def Event.ofWorker : Event → Bool
  | .receiveTask _ => true
  | .advance _ _ => true
  | .sendResult _ => true
  | .receiveResult _ => false
  | .sendKill => false

namespace Protocol

/-- Of the workers of a group that share the file of a site, either all find it missing in their
first jobs, or all find it there; and it is there in later jobs. -/
def Alike (missing : Nat → Site → Bool) (protocol : Protocol) : Event → Prop
  | .advance rank found => ∀ job ∈ protocol.running, job.destination = rank →
      ∀ site ∈ (protocol.place rank).site?, protocol.sharing.shares site = true →
        found = !(decide (job.tag < protocol.nodes) && missing (protocol.colour rank) site)
  | _ => True

instance (missing : Nat → Site → Bool) (protocol : Protocol) (event : Event) :
    Decidable (protocol.Alike missing event) :=
  match event with
  | .advance _ _ => inferInstanceAs (Decidable (∀ job ∈ _, _ → ∀ site ∈ _, _ → _ = _))
  | .receiveTask _ => inferInstanceAs (Decidable True)
  | .sendResult _ => inferInstanceAs (Decidable True)
  | .receiveResult _ => inferInstanceAs (Decidable True)
  | .sendKill => inferInstanceAs (Decidable True)

def joins (missing : Nat → Site → Bool) (protocol : Protocol) (rank : Nat) (site : Site) : Bool :=
  protocol.sharing.shares site && missing (protocol.colour rank) site

section Moves

variable (missing : Nat → Site → Bool) (protocol : Protocol) (rank : Nat) (place : Place)

@[simp] theorem move_place : (protocol.move rank place).place rank = place :=
  Function.update_self ..

@[simp] theorem move_calls : (protocol.move rank place).calls = protocol.calls := rfl

@[simp] theorem move_joins :
    (protocol.move rank place).joins missing = protocol.joins missing := rfl

@[simp] theorem enter_place : (protocol.enter rank place).place rank = place :=
  Function.update_self ..

@[simp] theorem enter_calls :
    (protocol.enter rank place).calls rank = protocol.calls rank + 1 := Function.update_self ..

@[simp] theorem enter_joins :
    (protocol.enter rank place).joins missing = protocol.joins missing := rfl

end Moves

/-- How far a worker is with its first job, which has a number below `nodes`. -/
inductive Standing (missing : Nat → Site → Bool) (protocol : Protocol) (rank : Nat) : Prop
  | waiting {job : Job} (member : job ∈ tasks protocol.mail) (own : job.destination = rank)
      (first : job.tag < protocol.nodes) (calls : protocol.calls rank = 0) :
      Standing missing protocol rank
  | running {job : Job} (member : job ∈ protocol.running) (own : job.destination = rank)
      (first : job.tag < protocol.nodes)
      (calls : protocol.calls rank = (protocol.place rank).entered (protocol.joins missing rank))
      (allowed : ∀ site ∈ (protocol.place rank).joined?, protocol.joins missing rank site = true) :
      Standing missing protocol rank
  | done (calls : protocol.calls rank = Site.total (protocol.joins missing rank))
      (mail : ∀ job ∈ tasks protocol.mail, job.destination = rank → protocol.nodes ≤ job.tag)
      (running : ∀ job ∈ protocol.running, job.destination = rank →
        protocol.nodes ≤ job.tag ∧ (protocol.place rank).joined? = none) :
      Standing missing protocol rank

structure Joined (missing : Nat → Site → Bool) (protocol : Protocol) : Prop where
  later : protocol.nodes ≤ protocol.master.jobs
  standing : ∀ rank ∈ List.range' 1 (protocol.nodes - 1), protocol.Standing missing rank

structure Frame (protocol next : Protocol) (rank : Nat) : Prop where
  nodes : next.nodes = protocol.nodes
  sharing : next.sharing = protocol.sharing
  colour : next.colour = protocol.colour
  place : next.place rank = protocol.place rank
  calls : next.calls rank = protocol.calls rank
  keeps : ∀ job ∈ tasks protocol.mail, job.destination = rank → job ∈ tasks next.mail
  brings : ∀ job ∈ tasks next.mail, job.destination = rank →
    job ∈ tasks protocol.mail ∨ protocol.nodes ≤ job.tag
  running : ∀ job, job.destination = rank → (job ∈ next.running ↔ job ∈ protocol.running)

section Steps

variable {missing : Nat → Site → Bool} {protocol next : Protocol} {campaign : Campaign}
  {workers rank : Nat}

theorem Standing.frame (standing : protocol.Standing missing rank)
    (frame : Frame protocol next rank) : next.Standing missing rank := by
  have same : next.joins missing rank = protocol.joins missing rank := by
    funext site
    rw [joins, joins, frame.sharing, frame.colour]
  cases standing with
  | waiting member own first calls =>
      exact .waiting (frame.keeps _ member own) own (frame.nodes ▸ first) (frame.calls.trans calls)
  | running member own first calls allowed =>
      refine .running ((frame.running _ own).mpr member) own (frame.nodes ▸ first) ?_ ?_
      · rw [frame.calls, calls, same, frame.place]
      · rwa [frame.place, same]
  | done calls mail running =>
      refine .done ?_ ?_ ?_
      · rw [frame.calls, calls, same]
      · intro job member own
        rw [frame.nodes]
        exact (frame.brings job member own).elim (fun old => mail job old own) id
      · intro job member own
        rw [frame.nodes, frame.place]
        exact running job ((frame.running job own).mp member) own

theorem mem_tasks_erase {job other : Job} (differ : job ≠ other) {mail : List Message} :
    job ∈ tasks (mail.erase (.task other)) ↔ job ∈ tasks mail := by
  rw [mem_tasks, mem_tasks, List.mem_erase_of_ne fun same => differ (Message.task.inj same)]

theorem tasks_erase_kill (mail : List Message) (destination : Nat) :
    ∀ job, job ∈ tasks (mail.erase (.kill destination)) ↔ job ∈ tasks mail := by
  intro job
  rw [mem_tasks, mem_tasks, List.mem_erase_of_ne (by simp)]

theorem Joined.receiveTask (joined : protocol.Joined missing) (numbered : protocol.Numbered)
    (refines : Refines protocol campaign) (safe : campaign.Safe workers)
    (stepped : protocol.receiveTask rank = some next) : next.Joined missing := by
  obtain ⟨_, message, member, destination, taken⟩ := receiveTask_cases stepped
  rcases taken with ⟨pill, rfl⟩ | ⟨job, rfl, rfl⟩
  · cases message with
    | task job => exact absurd pill (numbered.tag_ne (numbered.mail_sent member))
    | kill destination =>
        refine ⟨joined.later, fun worker inside => (joined.standing worker inside).frame ?_⟩
        exact ⟨rfl, rfl, rfl, rfl, rfl, fun job member _ => (tasks_erase_kill _ _ job).mpr member,
          fun job member _ => .inl ((tasks_erase_kill _ _ job).mp member), fun _ _ => Iff.rfl⟩
  · refine ⟨joined.later, fun worker inside => ?_⟩
    have standing := joined.standing worker inside
    have waits := mem_tasks.mpr member
    by_cases other : worker = rank
    · subst other
      cases standing with
      | @waiting one member' own first calls =>
          obtain rfl := refines.worker_unique safe (unanswered_of_mail member')
            (unanswered_of_mail waits) (own.trans destination.symm)
          refine .running (List.mem_append_right _ (List.mem_singleton_self one)) own first ?_ ?_
          · simp only [Function.update_self]
            exact calls
          · simp [Place.joined?]
      | running member' own =>
          exact absurd (destination.trans own.symm) (refines.apart safe waits member')
      | done calls mail running =>
          refine .done calls (fun one member' => mail one ?_) fun one member' own => ⟨?_, ?_⟩
          · exact mem_tasks.mpr (List.mem_of_mem_erase (mem_tasks.mp member'))
          · rcases List.mem_append.mp member' with old | new
            · exact (running one old own).1
            · obtain rfl := List.mem_singleton.mp new
              exact mail one waits own
          · simp [Place.joined?]
    · have differ (one : Job) (own : one.destination = worker) : one ≠ job := by
        rintro rfl
        exact other (own.symm.trans destination)
      refine standing.frame ⟨rfl, rfl, rfl, Function.update_of_ne other .., rfl, ?_, ?_, ?_⟩
      · exact fun one member' own => (mem_tasks_erase (differ one own)).mpr member'
      · exact fun one member' own => .inl ((mem_tasks_erase (differ one own)).mp member')
      · intro one own
        simp [differ one own]

theorem Joined.sendResult (joined : protocol.Joined missing) (refines : Refines protocol campaign)
    (safe : campaign.Safe workers) (stepped : protocol.sendResult rank = some next) :
    next.Joined missing := by
  obtain ⟨place, job, member, destination, rfl⟩ := sendResult_cases stepped
  refine ⟨joined.later, fun worker inside => ?_⟩
  have standing := joined.standing worker inside
  have alone {one : Job} (left : one ∈ protocol.running.erase job) :
      one.destination ≠ job.destination := by
    intro own
    obtain rfl := refines.worker_unique safe
      (unanswered_of_running (List.mem_of_mem_erase left)) (unanswered_of_running member) own
    have nodup := (Multiset.nodup_add.mp (Multiset.nodup_add.mp
      (Multiset.nodup_add.mp (refines.nodup safe)).1).1).2.1
    exact (Multiset.coe_nodup.mp nodup).not_mem_erase left
  by_cases other : worker = rank
  · subst other
    have calls : protocol.calls worker = Site.total (protocol.joins missing worker) := by
      cases standing with
      | waiting member' own =>
          exact absurd (own.trans destination.symm) (refines.apart safe member' member)
      | running member' own first calls =>
          rw [calls, place]
          rfl
      | done calls => exact calls
    refine .done calls (fun one member' own => ?_) fun one member' own => ?_
    · exact absurd (own.trans destination.symm) (refines.apart safe member' member)
    · exact absurd (own.trans destination.symm) (alone member')
  · refine standing.frame ⟨rfl, rfl, rfl, rfl, rfl, fun _ inMail _ => inMail,
      fun _ inMail _ => .inl inMail, fun one own => List.mem_erase_of_ne ?_⟩
    rintro rfl
    exact other (own.symm.trans destination)

theorem first_advanced {found : Bool} {job : Job} (member : job ∈ protocol.running)
    (own : job.destination = rank) (first : job.tag < protocol.nodes)
    (calls : protocol.calls rank = (protocol.place rank).entered (protocol.joins missing rank))
    (allowed : ∀ site ∈ (protocol.place rank).joined?, protocol.joins missing rank site = true)
    (alike : protocol.Alike missing (.advance rank found)) (moved : Moved protocol rank found next) :
    next.Standing missing rank := by
  have guard := alike job member own
  cases moved with
  | @miss site place shares missed =>
      have absent : missing (protocol.colour rank) site = true := by
        simpa [place, Place.site?, shares, missed, first] using guard
      have both : protocol.joins missing rank site = true := by simp [joins, shares, absent]
      refine .running member own first ?_ ?_
      · rw [enter_calls, calls, place, enter_place]
        rfl
      · simpa [Place.joined?] using both
  | @pass site place there =>
      have absent : protocol.joins missing rank site = false := by
        cases shares : protocol.sharing.shares site with
        | false => simp [joins, shares]
        | true =>
            have found := there shares
            simpa [place, Place.site?, shares, found, first, joins] using guard
      refine .running member own first ?_ ?_
      · rw [move_calls, calls, place, move_place, move_joins, Place.entered_next, absent]
        rfl
      · simp
  | @elect site place gathered =>
      refine .running member own first ?_ ?_
      · rw [enter_calls, calls, place, enter_place]
        rfl
      · rw [place] at allowed
        rw [enter_place]
        exact allowed
  | @meet site place gathered =>
      rw [place] at allowed
      refine .running member own first ?_ ?_
      · rw [move_calls, calls, place, move_place, move_joins, Place.entered_next,
          allowed site rfl]
        rfl
      · simp

theorem later_advanced {found : Bool} {job : Job} (member : job ∈ protocol.running)
    (own : job.destination = rank)
    (calls : protocol.calls rank = Site.total (protocol.joins missing rank))
    (mail : ∀ job ∈ tasks protocol.mail, job.destination = rank → protocol.nodes ≤ job.tag)
    (running : ∀ job ∈ protocol.running, job.destination = rank →
      protocol.nodes ≤ job.tag ∧ (protocol.place rank).joined? = none)
    (alike : protocol.Alike missing (.advance rank found)) (moved : Moved protocol rank found next) :
    next.Standing missing rank := by
  have guard := alike job member own
  obtain ⟨later, free⟩ := running job member own
  cases moved with
  | @miss site place shares missed =>
      simp [place, Place.site?, shares, missed, not_lt.mpr later] at guard
  | @pass site place there =>
      refine .done calls mail fun one member' own => ⟨(running one member' own).1, ?_⟩
      simp
  | elect place => simp [place, Place.joined?] at free
  | meet place => simp [place, Place.joined?] at free

theorem Moved.frame {found : Bool} (moved : Moved protocol rank found next) {worker : Nat}
    (other : worker ≠ rank) : Frame protocol next worker := by
  cases moved <;>
    exact ⟨rfl, rfl, rfl, by simp [enter, move, other], by simp [enter, move, other],
      fun _ inMail _ => inMail, fun _ inMail _ => .inl inMail, fun _ _ => Iff.rfl⟩

theorem Joined.advance {found : Bool} (joined : protocol.Joined missing)
    (refines : Refines protocol campaign) (safe : campaign.Safe workers)
    (alike : protocol.Alike missing (.advance rank found))
    (stepped : protocol.advance rank found = some next) : next.Joined missing := by
  obtain ⟨⟨job, member, destination⟩, moved⟩ := advance_cases stepped
  refine ⟨?_, fun worker inside => ?_⟩
  · rw [advance_same stepped]
    exact joined.later
  have standing : protocol.Standing missing worker := by
    rw [advance_same stepped] at inside
    exact joined.standing worker inside
  by_cases other : worker = rank
  · subst other
    cases standing with
    | waiting member' own =>
        exact absurd (own.trans destination.symm) (refines.apart safe member' member)
    | running member' own first calls allowed =>
        exact first_advanced member' own first calls allowed alike moved
    | done calls mail running =>
        exact later_advanced member destination calls mail running alike moved
  · exact standing.frame (moved.frame other)

theorem Joined.receiveResult {reply : Reply} (joined : protocol.Joined missing)
    (refines : Refines protocol campaign) (safe : campaign.Safe workers)
    (stepped : protocol.receiveResult reply = some next) : next.Joined missing := by
  obtain ⟨_, _, _, job, sent, source, member, round, size, shape⟩ :=
    refines.receiveResult safe stepped
  have later := joined.later
  generalize next.master = master at round shape
  subst shape
  refine ⟨?_, fun worker inside => (joined.standing worker inside).frame ?_⟩
  · simp only
    rw [round.jobs]
    omega
  · refine ⟨rfl, rfl, rfl, rfl, rfl, ?_, ?_, fun _ _ => Iff.rfl⟩
    · intro one inMail _
      rw [tasks_append]
      exact List.mem_append_left _ inMail
    · intro one inMail _
      rw [tasks_append, tasks_map_task] at inMail
      exact (List.mem_append.mp inMail).imp_right fun new => later.trans (round.tags one new).1

theorem Joined.sendKill (joined : protocol.Joined missing)
    (stepped : protocol.sendKill = some next) : next.Joined missing := by
  obtain ⟨_, rfl⟩ := sendKill_cases stepped
  refine ⟨joined.later, fun worker inside => (joined.standing worker inside).frame ?_⟩
  have same : tasks (protocol.mail ++ (List.range' 1 (protocol.nodes - 1)).map .kill) =
      tasks protocol.mail := by
    rw [tasks_append, tasks_map_kill, List.append_nil]
  exact ⟨rfl, rfl, rfl, rfl, rfl, fun job member _ => same ▸ member,
    fun job member _ => .inl (same ▸ member), fun _ _ => Iff.rfl⟩

theorem Joined.step {event : Event} (joined : protocol.Joined missing)
    (numbered : protocol.Numbered) (refines : Refines protocol campaign)
    (safe : campaign.Safe workers) (alike : protocol.Alike missing event)
    (stepped : protocol.step event = some next) : next.Joined missing := by
  cases event with
  | receiveTask rank => exact joined.receiveTask numbered refines safe stepped
  | advance rank found => exact joined.advance refines safe alike stepped
  | sendResult rank => exact joined.sendResult refines safe stepped
  | receiveResult reply => exact joined.receiveResult refines safe stepped
  | sendKill => exact joined.sendKill stepped

end Steps

/-! Somebody can go on. -/

def work (protocol : Protocol) : Nat :=
  8 * protocol.mail.length +
    (protocol.running.map fun job => (protocol.place job.destination).rest + 1).sum

section Progress

variable {missing : Nat → Site → Bool} {protocol next : Protocol} {campaign : Campaign}
  {workers rank : Nat}

theorem Moved.rest_lt {found : Bool} (moved : Moved protocol rank found next) :
    (next.place rank).rest < (protocol.place rank).rest := by
  cases moved with
  | @miss site place => cases site <;> simp [place, Place.rest]
  | @pass site place => cases site <;> simp [place, Place.rest, Site.next]
  | @elect site place => cases site <;> simp [place, Place.rest]
  | @meet site place => cases site <;> simp [place, Place.rest, Site.next]

theorem step_work {event : Event} (own : event.ofWorker = true)
    (stepped : protocol.step event = some next) : next.work < protocol.work := by
  cases event with
  | receiveTask rank =>
      obtain ⟨idle, message, member, destination, taken⟩ := receiveTask_cases stepped
      have length := List.length_erase_of_mem member
      have positive := List.length_pos_of_mem member
      rcases taken with ⟨_, rfl⟩ | ⟨job, rfl, rfl⟩
      · simp only [work, length]
        omega
      · have others : ∀ other ∈ protocol.running, other.destination ≠ rank := by
          simp only [waits, Bool.and_eq_true, List.all_eq_true, decide_eq_true_eq] at idle
          exact idle.1
        have same : (protocol.running.map fun other =>
            (Function.update protocol.place rank (.looking .graph) other.destination).rest + 1) =
            protocol.running.map fun other => (protocol.place other.destination).rest + 1 :=
          List.map_congr_left fun other member => by
            rw [Function.update_of_ne (others other member)]
        have destination : job.destination = rank := destination
        have whole : (Place.looking .graph).rest = 6 := rfl
        simp only [work, length, List.map_append, List.sum_append, same, List.map_singleton,
          List.sum_singleton, destination, Function.update_self, whole]
        omega
  | advance rank found =>
      obtain ⟨⟨job, member, destination⟩, moved⟩ := advance_cases stepped
      have less : (protocol.running.map fun job => (next.place job.destination).rest + 1).sum <
          (protocol.running.map fun job => (protocol.place job.destination).rest + 1).sum := by
        apply List.sum_lt_sum
        · intro other _
          by_cases own : other.destination = rank
          · rw [own]
            exact Nat.add_le_add_right moved.rest_lt.le 1
          · rw [(moved.frame own).place]
        · exact ⟨job, member, by rw [destination]; exact Nat.add_lt_add_right moved.rest_lt 1⟩
      rw [advance_same stepped]
      simp only [work]
      omega
  | sendResult rank =>
      obtain ⟨place, job, member, destination, rfl⟩ := sendResult_cases stepped
      have split := ((List.perm_cons_erase member).map fun job =>
        (protocol.place job.destination).rest + 1).sum_eq
      rw [List.map_cons, List.sum_cons] at split
      simp only [work]
      omega
  | receiveResult reply => cases own
  | sendKill => cases own

theorem advance_enabled {job : Job} (member : job ∈ protocol.running)
    (own : job.destination = rank) (going : protocol.place rank ≠ .simulating)
    (gathered : ∀ site ∈ (protocol.place rank).joined?, protocol.gathered rank = true)
    (found : Bool) : ∃ next, protocol.advance rank found = some next := by
  have busy : ¬(protocol.running.all fun job => job.destination ≠ rank) = true := by
    simpa using ⟨job, member, own⟩
  rw [advance, if_neg busy]
  cases place : protocol.place rank with
  | looking site => exact (em _).elim (fun misses => ⟨_, if_pos misses⟩) fun passes => ⟨_, if_neg passes⟩
  | electing site => exact ⟨_, if_pos (gathered site (by rw [place]; rfl))⟩
  | meeting site => exact ⟨_, if_pos (gathered site (by rw [place]; rfl))⟩
  | simulating => exact absurd place going

end Progress

structure Held (missing : Nat → Site → Bool) (protocol : Protocol) : Prop where
  campaign : ∃ campaign, Refines protocol campaign ∧ campaign.Safe (protocol.nodes - 1)
  numbered : protocol.Numbered
  joined : protocol.Joined missing

section Held

variable {missing : Nat → Site → Bool} {protocol next : Protocol} {rank : Nat} {job : Job}

theorem step_same {event : Event} (held : protocol.Held missing)
    (stepped : protocol.step event = some next) :
    next.nodes = protocol.nodes ∧ next.ends = protocol.ends := by
  obtain ⟨campaign, refines, safe⟩ := held.campaign
  cases event with
  | receiveTask rank =>
      obtain ⟨_, message, _, _, ⟨_, rfl⟩ | ⟨job, _, rfl⟩⟩ := receiveTask_cases stepped
      · exact ⟨rfl, rfl⟩
      · exact ⟨rfl, rfl⟩
  | advance rank found =>
      rw [advance_same stepped]
      exact ⟨rfl, rfl⟩
  | sendResult rank =>
      obtain ⟨_, _, _, _, rfl⟩ := sendResult_cases stepped
      exact ⟨rfl, rfl⟩
  | receiveResult reply =>
      obtain ⟨_, _, _, _, _, _, _, _, _, shape⟩ := refines.receiveResult safe stepped
      rw [shape]
      exact ⟨rfl, rfl⟩
  | sendKill =>
      obtain ⟨_, rfl⟩ := sendKill_cases stepped
      exact ⟨rfl, rfl⟩

theorem Held.step {event : Event} (held : protocol.Held missing) (below : protocol.BelowPill event)
    (alike : protocol.Alike missing event) (stepped : protocol.step event = some next) :
    next.Held missing := by
  have nodes := (step_same held stepped).1
  obtain ⟨campaign, refines, safe⟩ := held.campaign
  refine ⟨?_, held.numbered.step refines safe below stepped,
    held.joined.step held.numbered refines safe alike stepped⟩
  rw [nodes]
  rcases refines.step safe stepped with same | ⟨reply, campaign', taken, followed⟩
  · exact ⟨campaign, same, safe⟩
  · exact ⟨campaign', followed, safe.step taken⟩

theorem Held.isWorker (held : protocol.Held missing) (member : job ∈ protocol.unanswered) :
    job.destination ∈ List.range' 1 (protocol.nodes - 1) := by
  obtain ⟨campaign, refines, safe⟩ := held.campaign
  rw [← safe.balanced.partition.mem_iff, List.mem_append]
  rw [← refines.inFlight] at member
  exact .inr (List.mem_map_of_mem member)

theorem Held.advances (held : protocol.Held missing) (member : job ∈ protocol.running)
    (going : protocol.place job.destination ≠ .simulating)
    (gathered : ∀ site ∈ (protocol.place job.destination).joined?,
      protocol.gathered job.destination = true) :
    ∃ found next, protocol.Alike missing (.advance job.destination found) ∧
      protocol.advance job.destination found = some next := by
  obtain ⟨campaign, refines, safe⟩ := held.campaign
  cases looks : (protocol.place job.destination).site? with
  | none =>
      obtain ⟨next, stepped⟩ := advance_enabled member rfl going gathered true
      exact ⟨true, next, fun _ _ _ site inside => by simp [looks] at inside, stepped⟩
  | some site =>
      obtain ⟨next, stepped⟩ := advance_enabled member rfl going gathered
        (!(decide (job.tag < protocol.nodes) && missing (protocol.colour job.destination) site))
      refine ⟨_, next, fun other inside own asked seen _ => ?_, stepped⟩
      obtain rfl : site = asked := by simpa [looks] using seen
      rw [refines.worker_unique safe (unanswered_of_running inside)
        (unanswered_of_running member) own]

theorem Held.answers (held : protocol.Held missing) (member : job ∈ protocol.running)
    (ends : protocol.ends job = true) (ended : protocol.place job.destination = .simulating) :
    ∃ next, protocol.sendResult job.destination = some next ∧ job ∈ next.answered := by
  obtain ⟨campaign, refines, safe⟩ := held.campaign
  cases found : protocol.running.find? fun other => other.destination = job.destination with
  | none =>
      have none := List.find?_eq_none.mp found _ member
      simp at none
  | some other =>
      have inside := List.mem_of_find?_eq_some found
      have own : other.destination = job.destination := by simpa using List.find?_some found
      obtain rfl := refines.worker_unique safe (unanswered_of_running inside)
        (unanswered_of_running member) own
      refine ⟨{ protocol with
        running := protocol.running.erase other
        results := protocol.results ++ [other]
        answered := protocol.answered ++ [other] }, ?_, ?_⟩
      · rw [Protocol.sendResult, if_neg (not_not.mpr ended), found]
        exact if_pos ends
      · exact List.mem_append_right _ (List.mem_singleton_self other)

/-- The first jobs of a group have entered no more operations than they make together. -/
theorem Held.calls_le (held : protocol.Held missing) (member : job ∈ protocol.running)
    {site : Site} (waits : site ∈ (protocol.place job.destination).joined?) :
    protocol.calls job.destination ≤ Site.total (protocol.joins missing job.destination) := by
  obtain ⟨campaign, refines, safe⟩ := held.campaign
  cases held.joined.standing _ (held.isWorker (unanswered_of_running member)) with
  | waiting member' own => exact absurd own (refines.apart safe member' member)
  | running member' own first calls allowed =>
      rw [calls]
      exact Place.entered_le_total allowed
  | done calls mail running =>
      rw [(running job member rfl).2] at waits
      cases waits

/-- Whoever has entered the fewest operations of its group is held up by nobody. -/
theorem exists_gathered (member : rank ∈ protocol.group rank)
    (held_up : protocol.gathered rank = false) :
    ∃ other ∈ protocol.group rank, protocol.calls other < protocol.calls rank ∧
      protocol.gathered other = true := by
  obtain ⟨other, inside, least⟩ := (protocol.group rank).toFinset.exists_min_image protocol.calls
    ⟨rank, List.mem_toFinset.mpr member⟩
  rw [List.mem_toFinset] at inside
  simp only [List.mem_toFinset] at least
  have colour : protocol.colour other = protocol.colour rank := by
    simpa using (List.mem_filter.mp inside).2
  refine ⟨other, inside, ?_, ?_⟩
  · obtain ⟨slow, near, behind⟩ : ∃ slow ∈ protocol.group rank,
        protocol.calls slow < protocol.calls rank := by
      simpa [gathered] using held_up
    exact (least slow near).trans_lt behind
  · have same : protocol.group other = protocol.group rank := by rw [group, colour, group]
    simpa [gathered, same] using least

theorem Held.goes_on (held : protocol.Held missing) (member : job ∈ protocol.running)
    (ends : protocol.ends job = true) :
    ∃ event next, event.ofWorker = true ∧ protocol.Alike missing event ∧
      protocol.step event = some next ∧ (job ∈ next.running ∨ job ∈ next.answered) := by
  have advances {other : Job} (inside : other ∈ protocol.running)
      (going : protocol.place other.destination ≠ .simulating)
      (gathered : ∀ site ∈ (protocol.place other.destination).joined?,
        protocol.gathered other.destination = true) :
      ∃ event next, event.ofWorker = true ∧ protocol.Alike missing event ∧
        protocol.step event = some next ∧ (job ∈ next.running ∨ job ∈ next.answered) := by
    obtain ⟨found, next, alike, stepped⟩ := held.advances inside going gathered
    refine ⟨.advance other.destination found, next, rfl, alike, stepped, .inl ?_⟩
    rw [advance_same stepped]
    exact member
  by_cases ended : protocol.place job.destination = .simulating
  · obtain ⟨next, stepped, answered⟩ := held.answers member ends ended
    exact ⟨.sendResult job.destination, next, rfl, trivial, stepped, .inr answered⟩
  by_cases free : ∀ site ∈ (protocol.place job.destination).joined?,
      protocol.gathered job.destination = true
  · exact advances member ended free
  push Not at free
  obtain ⟨site, waits, held_up⟩ := free
  have limit := held.calls_le member waits
  obtain ⟨campaign, refines, safe⟩ := held.campaign
  have inside := held.isWorker (unanswered_of_running member)
  obtain ⟨other, near, behind, gathered⟩ := exists_gathered
    (List.mem_filter.mpr ⟨inside, by simp⟩) (Bool.eq_false_iff.mpr held_up)
  obtain ⟨worker, colour⟩ := List.mem_filter.mp near
  have same : protocol.joins missing other = protocol.joins missing job.destination := by
    funext site
    rw [joins, joins, of_decide_eq_true colour]
  rw [← same] at limit
  cases held.joined.standing other worker with
  | waiting member' own =>
      obtain ⟨next, stepped, _⟩ := held.numbered.received refines safe member'
      refine ⟨.receiveTask _, next, rfl, trivial, stepped, .inl ?_⟩
      obtain ⟨_, _, _, _, ⟨_, rfl⟩ | ⟨_, _, rfl⟩⟩ := receiveTask_cases stepped
      · exact member
      · exact List.mem_append_left _ member
  | running member' own first calls allowed =>
      subst own
      refine advances member' (fun ended' => ?_) fun _ _ => gathered
      rw [ended'] at calls
      exact absurd (calls.symm.trans_lt behind) (not_lt.mpr limit)
  | done calls => exact absurd (calls.symm.trans_lt behind) (not_lt.mpr limit)

end Held

theorem initialJobs_own {experiments : List Experiment} {simNum jobs : Nat} {job : Job}
    (member : job ∈ Master.initialJobs experiments simNum jobs) : job.tag = job.destination := by
  induction experiments generalizing simNum jobs with
  | nil => cases member
  | cons experiment rest ih =>
      rcases List.mem_append.mp member with first | later
      · obtain ⟨_, _, rfl⟩ := List.mem_map.mp first
        rfl
      · exact ih later

theorem start_held {sharing : Sharing} {colour : Nat → Nat} {ends : Job → Bool}
    {missing : Nat → Site → Bool} {runs initReplications nodes : Nat} (someRuns : 1 ≤ runs)
    (someReplications : 1 ≤ initReplications) (enough : runs * initReplications + 1 ≤ nodes)
    (small : nodes < 65536) :
    (start sharing colour ends runs initReplications nodes).Held missing := by
  refine ⟨⟨_, start_refines sharing colour ends runs initReplications nodes,
    Campaign.start_safe someRuns someReplications enough small⟩,
    start_numbered someRuns enough small, ?_⟩
  refine ⟨(start_jobs someRuns enough small).ge, fun rank inside => ?_⟩
  have total := (Master.setup_spec initReplications someRuns enough small).2.2
  have destinations :=
    Master.initialJobs_destinations (Master.setup runs initReplications nodes) 1 1
  have worker : rank ∈ List.range' 1 (nodes - 1) := inside
  rw [← total, ← destinations] at worker
  obtain ⟨job, member, own⟩ := List.mem_map.mp worker
  have tag := initialJobs_own member
  refine @Standing.waiting _ _ _ job ?_ own ?_ rfl
  · simp only [start, tasks_map_task]
    exact member
  · have bound := List.mem_range'_1.mp inside
    simp only [start] at bound ⊢
    omega

end Protocol

end RlAqs
