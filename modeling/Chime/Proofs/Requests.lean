import Chime.Dispatch

/-!
# Requests in flight

Every poll uses up the one request for a poll and asks for the next, whatever else the device does,
so polling neither stops nor doubles. Requests to look at the buttons pile up with the edges and are
worked off one by one. The interrupts and the tasks may come in any order in which no task runs
unasked.
-/

set_option autoImplicit false

namespace Chime

namespace Device

def Step.asked : Step → List Request
  | poll _ => [⟨.poll, pollPeriod⟩]
  | edge => [⟨.buttons, settleTime⟩]
  | buttons _ _ _ => []

theorem requests_step (s : Step) (device : Device) : (device.step s).2.requests = s.asked := by
  cases s with
  | poll now => rfl
  | edge => rfl
  | buttons a b now => cases a <;> cases b <;> rfl

end Device

namespace Dispatch

def served (task : Task) (ts : List Turn) : Nat := ts.countP fun t => t.task? = some task

@[simp]
theorem served_cons (task : Task) (t : Turn) (ts : List Turn) :
    served task (t :: ts) = served task ts + if t.task? = some task then 1 else 0 := by
  simp [served, List.countP_cons]

/-! ### Serving a request -/

section

variable {task : Task}

theorem filter_eraseP_self (requests : List Request) :
    (requests.eraseP fun r => r.task = task).filter (fun r => r.task = task) =
      (requests.filter fun r => r.task = task).tail := by
  induction requests with
  | nil => rfl
  | cons r requests ih =>
    by_cases h : r.task = task
    · simp [h]
    · simp [h, ih]

theorem filter_eraseP_other {other : Task} (h : other ≠ task) (requests : List Request) :
    (requests.eraseP fun r => r.task = task).filter (fun r => r.task = other) =
      requests.filter fun r => r.task = other := by
  induction requests with
  | nil => rfl
  | cons r requests ih =>
    by_cases hr : r.task = task
    · simp [hr, h.symm]
    · simp [hr, List.filter_cons, ih]

theorem isSome_serve? (requests : List Request) :
    (serve? task requests).isSome = true ↔ (requests.filter fun r => r.task = task) ≠ [] := by
  simp [serve?, List.filter_eq_nil_iff]

theorem filter_serve? {requests left : List Request} (h : serve? task requests = some left)
    (other : Task) :
    (left.filter fun r => r.task = other) =
      if task = other then (requests.filter fun r => r.task = other).tail
      else requests.filter fun r => r.task = other := by
  simp only [serve?, Option.ite_none_right_eq_some, Option.some.injEq] at h
  obtain ⟨-,rfl⟩ := h
  split
  case isTrue h => exact h ▸ filter_eraseP_self requests
  case isFalse h => exact filter_eraseP_other (Ne.symm h) requests

end

/-! ### One turn -/

section

variable {t : Turn} {d d' : Dispatch}

theorem isSome_turn? : (d.turn? t).isSome = true ↔
    ∀ task, t.task? = some task → d.pending task ≠ [] := by
  rw [turn?]
  cases h : t.task? with
  | none => simp
  | some task => simp [isSome_serve?, pending]

theorem device_turn? (h : d.turn? t = some d') : d'.device = (d.device.step t.step).1 := by
  obtain ⟨requests,-,rfl⟩ := Option.map_eq_some_iff.mp h
  rfl

theorem pending_turn? (h : d.turn? t = some d') (task : Task) :
    d'.pending task =
      (if t.task? = some task then (d.pending task).tail else d.pending task) ++
        t.step.asked.filter fun r => r.task = task := by
  obtain ⟨requests,hleft,rfl⟩ := Option.map_eq_some_iff.mp h
  simp only [pending, List.filter_append, Device.requests_step]
  congr 1
  cases ht : t.task? with
  | none =>
    rw [ht] at hleft
    cases hleft
    simp
  | some mine =>
    rw [ht] at hleft
    simpa using filter_serve? hleft task

end

/-! ### Whole runs -/

/-- One poll is asked for with the given delay, and `n` looks at the buttons. -/
structure Awaits (delay : Duration) (n : Nat) (d : Dispatch) : Prop where
  poll : d.pending .poll = [⟨.poll, delay⟩]
  buttons : d.pending .buttons = List.replicate n ⟨.buttons, Device.settleTime⟩

theorem awaits_boot : Awaits ⟨0⟩ 0 .boot := ⟨rfl,rfl⟩

section

variable {t : Turn} {d d' : Dispatch} {delay : Duration} {n : Nat}

theorem Awaits.poll_turn {now : Instant} (hd : d.Awaits delay n)
    (h : d.turn? (.poll now) = some d') : d'.Awaits Device.pollPeriod n where
  poll := by simp [pending_turn? h, hd.poll, Turn.task?, Turn.step, Device.Step.asked]
  buttons := by simp [pending_turn? h, hd.buttons, Turn.task?, Turn.step, Device.Step.asked]

theorem Awaits.edge_turn (hd : d.Awaits delay n) (h : d.turn? .edge = some d') :
    d'.Awaits delay (n + 1) where
  poll := by simp [pending_turn? h, hd.poll, Turn.task?, Turn.step, Device.Step.asked]
  buttons := by
    simp [pending_turn? h, hd.buttons, Turn.task?, Turn.step, Device.Step.asked,
      List.replicate_succ']

theorem Awaits.buttons_turn {a b : Bool} {now : Instant} (hd : d.Awaits delay n)
    (h : d.turn? (.buttons a b now) = some d') : 0 < n ∧ d'.Awaits delay (n - 1) := by
  refine ⟨?_,?_,?_⟩
  · have hasked := isSome_turn?.mp (Option.isSome_of_eq_some h) .buttons rfl
    rw [hd.buttons] at hasked
    exact Nat.pos_of_ne_zero fun hn => hasked (by rw [hn]; rfl)
  · simp [pending_turn? h, hd.poll, Turn.task?, Turn.step, Device.Step.asked]
  · simp [pending_turn? h, hd.buttons, Turn.task?, Turn.step, Device.Step.asked]

end

theorem device_run? {ts : List Turn} {d d' : Dispatch} (h : run? ts d = some d') :
    d'.device = (Device.run (ts.map Turn.step) d.device).1 := by
  induction ts generalizing d with
  | nil => cases h; rfl
  | cons t ts ih =>
    obtain ⟨mid,hturn,hrest⟩ := Option.bind_eq_some_iff.mp h
    rw [ih hrest, device_turn? hturn]
    rfl

theorem Awaits.run {ts : List Turn} {d d' : Dispatch} {delay : Duration} {n : Nat}
    (hd : d.Awaits delay n) (h : run? ts d = some d') :
    served .buttons ts ≤ n + ts.count .edge ∧
      d'.Awaits (if served .poll ts = 0 then delay else Device.pollPeriod)
        (n + ts.count .edge - served .buttons ts) := by
  induction ts generalizing d delay n with
  | nil => cases h; exact ⟨Nat.zero_le _,hd⟩
  | cons t ts ih =>
    obtain ⟨mid,hturn,hrest⟩ := Option.bind_eq_some_iff.mp h
    cases t with
    | poll now =>
      obtain ⟨hle,hend⟩ := ih (hd.poll_turn hturn) hrest
      simp only [ite_self] at hend
      simpa [Turn.task?] using ⟨hle,hend⟩
    | edge =>
      obtain ⟨hle,hend⟩ := ih (hd.edge_turn hturn) hrest
      rw [Nat.add_right_comm] at hle hend
      simpa [Turn.task?] using ⟨hle,hend⟩
    | buttons a b now =>
      obtain ⟨hn,hmid⟩ := hd.buttons_turn hturn
      obtain ⟨hle,hend⟩ := ih hmid hrest
      have hserved : served .buttons (.buttons a b now :: ts) = served .buttons ts + 1 := by
        simp [Turn.task?]
      have hpolls : served .poll (.buttons a b now :: ts) = served .poll ts := by
        simp [Turn.task?]
      have hedges : (Turn.buttons a b now :: ts).count .edge = ts.count .edge :=
        List.count_cons_of_ne (by simp)
      have hleft : n - 1 + ts.count .edge - served .buttons ts =
          n + ts.count .edge - (served .buttons ts + 1) := by omega
      rw [hserved, hpolls, hedges, ← hleft]
      exact ⟨by omega,hend⟩

/-- After any run one poll is asked for, at once if it is to be the first and after the poll period
otherwise, and each edge not yet looked at has its request. So a poll can always be run, and a look
at the buttons if and only if one is owed. -/
theorem requests_in_flight {ts : List Turn} {d : Dispatch} (h : run? ts .boot = some d) :
    d.device = (Device.run (ts.map Turn.step) .initial).1 ∧
      d.pending .poll = [⟨.poll, if served .poll ts = 0 then ⟨0⟩ else ⟨5⟩⟩] ∧
      served .buttons ts ≤ ts.count .edge ∧
      d.pending .buttons =
        List.replicate (ts.count .edge - served .buttons ts) ⟨.buttons, ⟨50⟩⟩ ∧
      ∀ t, (d.turn? t).isSome = true ↔
        (t.task? = some .buttons → served .buttons ts < ts.count .edge) := by
  obtain ⟨hle,hpoll,hbuttons⟩ := awaits_boot.run h
  rw [Nat.zero_add] at hle hbuttons
  refine ⟨device_run? h,hpoll,hle,hbuttons,fun t => ?_⟩
  rw [isSome_turn?]
  cases t with
  | poll now => simp [Turn.task?, hpoll]
  | edge => simp [Turn.task?]
  | buttons a b now => simp [Turn.task?, hbuttons, Nat.sub_eq_zero_iff_le]

/-- Button A is held, two edges are seen and one of them is looked at between two polls. -/
theorem requests_in_flight_after_two_edges :
    ∃ d, run? [.poll ⟨0⟩, .edge, .edge, .buttons true false ⟨60⟩, .poll ⟨65⟩] .boot = some d ∧
      d.pending .poll = [⟨.poll, ⟨5⟩⟩] ∧
      d.pending .buttons = [⟨.buttons, ⟨50⟩⟩] ∧
      (d.turn? (.buttons false true ⟨110⟩)).isSome = true := by
  have hrun : (run? [.poll ⟨0⟩, .edge, .edge, .buttons true false ⟨60⟩, .poll ⟨65⟩]
      .boot).isSome = true := by decide +kernel
  obtain ⟨d,hd⟩ := Option.isSome_iff_exists.mp hrun
  obtain ⟨-,hpoll,-,hbuttons,hturn⟩ := requests_in_flight hd
  exact ⟨d,hd,hpoll,hbuttons,(hturn _).mpr fun _ => by decide⟩

end Dispatch

end Chime
