import Lte.ServingCell
/-!
# SignalCourse — where the cells' powers go, and how often a1 and a2 can come

From its start a cell's power climbs to 97, and from there it swings between 97 and 0 for ever, 20 updates each way
(`rsrp_after`).  a1 is the serving cell on its way up past 19 and a2 on its way down past 77, once in each swing at most:
whatever the neighbour cell does, two a1 are more than a minute apart, and so are two a2 (`servingEvents_apart`).
-/
namespace Lte
namespace SignalCourse

open CheckEvents ServingCell

/-- The updates until the power is 97 for the first time. -/
def peak (start : Int) : Nat := ((maxRsrp - start + 4) / 5).toNat

/-- The updates since the power was last 97, once it has been. -/
def phase (start : Int) (k : Nat) : Nat := (k - peak start) % 40

/-- The power after `k` updates. -/
def rsrpAt (start : Int) (k : Nat) : Int :=
  if k < peak start then start + 5 * k
  else if phase start k < 20 then 97 - 5 * phase start k
  else 5 * (phase start k - 20)

def courseAt (start : Int) (k : Nat) : Int :=
  if k < peak start then 5
  else if phase start k < 20 then -5
  else 5

def cellAt (start : Int) (k : Nat) : SCellSignal :=
  { rsrp := rsrpAt start k, thresholds := ![threshold1, threshold2], signalCourse := courseAt start k }

section
variable {start : Int}

theorem moving_cellAt (hs : 0 ≤ start ∧ start ≤ 96) (k : Nat) : Moving (cellAt start k) where
  thresholds := rfl
  range := by
    simp only [cellAt, rsrpAt, phase, peak, maxRsrp]
    split_ifs <;> omega
  course := by
    simp only [cellAt, courseAt]
    split_ifs <;> omega

/-- **One update more.** -/
theorem updateRsrp_cellAt (hs : 0 ≤ start ∧ start ≤ 96) (k : Nat) :
    updateRsrp (cellAt start k) = cellAt start (k + 1) := by
  rw [updateRsrp_eq (moving_cellAt hs k)]
  have hrsrp : max 0 (min maxRsrp (rsrpAt start k + courseAt start k)) = rsrpAt start (k + 1) := by
    simp only [rsrpAt, courseAt, phase, peak, maxRsrp]
    split_ifs <;> omega
  have hcourse : (if rsrpAt start (k + 1) ≥ maxRsrp ∨ rsrpAt start (k + 1) ≤ 0 then -courseAt start k
      else courseAt start k) = courseAt start (k + 1) := by
    simp only [rsrpAt, courseAt, phase, peak, maxRsrp]
    split_ifs <;> omega
  simp only [cellAt, hrsrp, hcourse]

/-- The power passes 19 on its way up, and again no sooner than 39 updates later. -/
theorem up_apart (hs : 0 ≤ start ∧ start ≤ 96) {k k' : Nat} (hlt : k < k') (hbelow : rsrpAt start k ≤ threshold1)
    (habove : threshold1 < rsrpAt start (k + 1)) (hbelow' : rsrpAt start k' ≤ threshold1)
    (habove' : threshold1 < rsrpAt start (k' + 1)) : k + 39 ≤ k' := by
  simp only [rsrpAt, phase, peak, maxRsrp, threshold1] at hbelow habove hbelow' habove'
  split_ifs at hbelow habove hbelow' habove' <;> omega

/-- The power passes 77 on its way down, and again no sooner than 40 updates later. -/
theorem down_apart (hs : 0 ≤ start ∧ start ≤ 96) {k k' : Nat} (hlt : k < k') (habove : threshold2 ≤ rsrpAt start k)
    (hbelow : rsrpAt start (k + 1) < threshold2) (habove' : threshold2 ≤ rsrpAt start k')
    (hbelow' : rsrpAt start (k' + 1) < threshold2) : k + 40 ≤ k' := by
  simp only [rsrpAt, phase, peak, maxRsrp, threshold2] at hbelow habove hbelow' habove'
  split_ifs at hbelow habove hbelow' habove' <;> omega

end

/-! ## Runs -/

/-- How many of the calls update the powers. -/
def updates (u : Ue) : List Reading → Nat
  | [] => 0
  | t :: ts => (if t.timeNow - u.cells.startingTime > timeUp then 1 else 0) + updates (signals.next u t) ts

theorem updates_append : ∀ (u : Ue) (ts ts' : List Reading),
    updates u (ts ++ ts') = updates u ts + updates (signals.final u ts) ts'
  | u, [], ts' => (Nat.zero_add _).symm
  | u, t :: ts, ts' => by
    rw [List.cons_append, updates, updates, updates_append (signals.next u t) ts ts', Nat.add_assoc]
    rfl

/-- Every cell is where `k` updates lead. -/
def Course (start : Fin 2 → Int) (k : Nat) (u : Ue) : Prop := ∀ i, u.cells.cellsSignals i = cellAt (start i) k

section
variable {start : Fin 2 → Int} {k : Nat} {u : Ue}

theorem Course.call (hs : ∀ i, 0 ≤ start i ∧ start i ≤ 96) (hu : Course start k u) (t : Reading) :
    Course start (k + if t.timeNow - u.cells.startingTime > timeUp then 1 else 0) (signals.next u t) := by
  intro i
  have hcell : (signals.next u t).cells.cellsSignals i =
      (updateRsrps u.cells t.timeNow t.timeReset).cellsSignals i := rfl
  rw [hcell, updateRsrps]
  by_cases hup : t.timeNow - u.cells.startingTime > timeUp
  · rw [if_pos hup, if_pos hup]
    show updateRsrp (u.cells.cellsSignals i) = cellAt (start i) (k + 1)
    rw [hu i, updateRsrp_cellAt (hs i)]
  · rw [if_neg hup, if_neg hup]
    exact hu i

theorem Course.run (hs : ∀ i, 0 ≤ start i ∧ start i ≤ 96) : ∀ {k : Nat} {u : Ue}, Course start k u →
    ∀ ts, Course start (k + updates u ts) (signals.final u ts)
  | _, _, hu, [] => hu
  | k, u, hu, t :: ts => by
    have h := (hu.call hs t).run hs ts
    rwa [Nat.add_assoc] at h

theorem course_start (hs : ∀ i, 0 ≤ start i ∧ start i ≤ 96) (now : Int) : Course start 0 (Ue.start start now) := by
  intro i
  have hpeak : 0 < peak (start i) := by
    have h := (hs i).2
    unfold peak maxRsrp
    omega
  have hrsrp : rsrpAt (start i) 0 = start i := by
    rw [rsrpAt, if_pos hpeak]
    simp
  have hcourse : courseAt (start i) 0 = 5 := if_pos hpeak
  rw [cellAt, hrsrp, hcourse]
  rfl

/-- **The power of every cell is known from its start and the number of updates.** -/
theorem rsrp_after (hs : ∀ i, 0 ≤ start i ∧ start i ≤ 96) (now : Int) (ts : List Reading) (i : Fin 2) :
    powers (after start now ts).cells i = rsrpAt (start i) (updates (Ue.start start now) ts) := by
  have h := (course_start hs now).run hs ts i
  rw [Nat.zero_add] at h
  exact congrArg SCellSignal.rsrp h

/-- A call every two seconds. -/
def everySecond (n : Nat) : List Reading := (List.range n).map fun (k : Nat) => ⟨2 * (k + 1), 2 * (k + 1)⟩

/-- From 13 to 97 and down to 0 in 37 updates, while the other cell is on its way down. -/
theorem rsrp_after_everySecond :
    powers (after ![13, 0] 0 (everySecond 37)).cells 0 = 0 ∧ powers (after ![13, 0] 0 (everySecond 37)).cells 1 = 12 := by
  have hs : ∀ i, 0 ≤ (![13, 0] : Fin 2 → Int) i ∧ (![13, 0] : Fin 2 → Int) i ≤ 96 := by decide
  rw [rsrp_after hs, rsrp_after hs]
  decide +kernel

/-- The updates take two seconds each, when the clock does not go back within a call. -/
theorem startingTime_after : ∀ (u : Ue) {ts : List Reading}, (∀ t ∈ ts, t.timeNow ≤ t.timeReset) →
    u.cells.startingTime + 2 * updates u ts ≤ (signals.final u ts).cells.startingTime
  | u, [], _ => by
    rw [updates]
    exact Int.le_of_eq (Int.add_zero _)
  | u, t :: ts, hclock => by
    have hrest := startingTime_after (signals.next u t) fun t' ht' => hclock t' (List.mem_cons_of_mem t ht')
    have ht := hclock t (List.mem_cons_self ..)
    have hfinal : signals.final u (t :: ts) = signals.final (signals.next u t) ts := rfl
    have hnext : (signals.next u t).cells.startingTime =
        if t.timeNow - u.cells.startingTime > timeUp then t.timeReset else u.cells.startingTime := by
      show (updateRsrps u.cells t.timeNow t.timeReset).startingTime = _
      rw [updateRsrps]
      split <;> rfl
    rw [hfinal, updates]
    rw [hnext] at hrest
    unfold timeUp at hrest ⊢
    split_ifs at hrest ⊢ with hup
    · omega
    · omega

end

/-! ## a1 and a2 -/

/-- What a call returns: the event it stores. -/
def eventAt (u : Ue) (t : Reading) : SEvent := (signals.next u t).cells.currentEvent

section
variable {start : Fin 2 → Int} {k : Nat} {u : Ue}

/-- A UE of a run: its cells are on their course, and its serving cell has not yet crossed what is armed. -/
structure OnCourse (start : Fin 2 → Int) (k : Nat) (u : Ue) : Prop where
  course : Course start k u
  behind : Behind u.statics (rsrpAt (start serving) k)

/-- What a call finds of the serving cell. -/
theorem found_serving_eq (hs : ∀ i, 0 ≤ start i ∧ start i ≤ 96) (hu : Course start k u) (t : Reading) :
    (found u t).rsrp serving =
      rsrpAt (start serving) (k + if t.timeNow - u.cells.startingTime > timeUp then 1 else 0) :=
  congrArg SCellSignal.rsrp (hu.call hs t serving)

/-- **An a1 is an update that takes the serving cell past 19 on its way up.** -/
theorem OnCourse.of_a1 (hs : ∀ i, 0 ≤ start i ∧ start i ≤ 96) (hu : OnCourse start k u) {t : Reading}
    (he : eventAt u t = .a1) :
    t.timeNow - u.cells.startingTime > timeUp ∧ rsrpAt (start serving) k ≤ threshold1 ∧
      threshold1 < rsrpAt (start serving) (k + 1) := by
  have hmoving : ∀ i, Moving (u.cells.cellsSignals i) := fun i => by
    rw [hu.course i]
    exact moving_cellAt (hs i) k
  have hevent : (checkEvents (sampled (found u t).rsrp) u.statics).1 = .a1 :=
    (setCurrentSignalEvent_spec hmoving t).1.symm.trans he
  obtain ⟨habove, harmed⟩ := checkEvents_a1_iff.1 hevent
  have hbelow := hu.behind.up harmed
  have hfound : threshold1 < (found u t).rsrp serving := habove
  rw [found_serving_eq hs hu.course] at hfound
  by_cases hup : t.timeNow - u.cells.startingTime > timeUp
  · rw [if_pos hup] at hfound
    exact ⟨hup, hbelow, hfound⟩
  · rw [if_neg hup] at hfound
    exact absurd hbelow (Int.not_le.2 hfound)

/-- **An a2 is an update that takes the serving cell past 77 on its way down.** -/
theorem OnCourse.of_a2 (hs : ∀ i, 0 ≤ start i ∧ start i ≤ 96) (hu : OnCourse start k u) {t : Reading}
    (he : eventAt u t = .a2) :
    t.timeNow - u.cells.startingTime > timeUp ∧ threshold2 ≤ rsrpAt (start serving) k ∧
      rsrpAt (start serving) (k + 1) < threshold2 := by
  have hmoving : ∀ i, Moving (u.cells.cellsSignals i) := fun i => by
    rw [hu.course i]
    exact moving_cellAt (hs i) k
  have hevent : (checkEvents (sampled (found u t).rsrp) u.statics).1 = .a2 :=
    (setCurrentSignalEvent_spec hmoving t).1.symm.trans he
  obtain ⟨hbelow, harmed⟩ := checkEvents_a2_iff.1 hevent
  have habove := hu.behind.down harmed
  have hfound : (found u t).rsrp serving < threshold2 := hbelow
  rw [found_serving_eq hs hu.course] at hfound
  by_cases hup : t.timeNow - u.cells.startingTime > timeUp
  · rw [if_pos hup] at hfound
    exact ⟨hup, habove, hfound⟩
  · rw [if_neg hup] at hfound
    exact absurd habove (Int.not_le.2 hfound)

theorem onCourse_after (hs : ∀ i, 0 ≤ start i ∧ start i ≤ 96) (now : Int) (ts : List Reading) :
    OnCourse start (updates (Ue.start start now) ts) (after start now ts) := by
  have hcourse := (course_start hs now).run hs ts
  rw [Nat.zero_add] at hcourse
  have hpower : powers (after start now ts).cells serving = rsrpAt (start serving) (updates (Ue.start start now) ts) :=
    congrArg SCellSignal.rsrp (hcourse serving)
  refine ⟨hcourse, ?_⟩
  rw [← hpower]
  exact (tracked_after hs now ts).behind

/-- From one update to another, each one between them took two seconds. -/
theorem update_apart {u : Ue} {mid : List Reading} {t t' : Reading} (hclock : ∀ r ∈ mid, r.timeNow ≤ r.timeReset)
    (hup : t.timeNow - u.cells.startingTime > timeUp)
    (hup' : t'.timeNow - (signals.final u (t :: mid)).cells.startingTime > timeUp) :
    t.timeReset + 2 * updates u (t :: mid) ≤ t'.timeNow := by
  have htime := startingTime_after (signals.next u t) hclock
  have hnext : (signals.next u t).cells.startingTime = t.timeReset := by
    show (updateRsrps u.cells t.timeNow t.timeReset).startingTime = t.timeReset
    rw [updateRsrps, if_pos hup]
  have hfinal : signals.final u (t :: mid) = signals.final (signals.next u t) mid := rfl
  rw [updates, if_pos hup]
  rw [hfinal] at hup'
  rw [hnext] at htime
  unfold timeUp at hup'
  omega

/-- **Two a1 are at least 78 seconds apart, and two a2 at least 80**, whatever the neighbour cell does. -/
theorem servingEvents_apart (hs : ∀ i, 0 ≤ start i ∧ start i ≤ 96) (now : Int) (pre mid : List Reading)
    {t t' : Reading} (hclock : ∀ r ∈ mid, r.timeNow ≤ r.timeReset) :
    (eventAt (after start now pre) t = .a1 → eventAt (after start now (pre ++ t :: mid)) t' = .a1 →
      t.timeReset + 78 ≤ t'.timeNow) ∧
    (eventAt (after start now pre) t = .a2 → eventAt (after start now (pre ++ t :: mid)) t' = .a2 →
      t.timeReset + 80 ≤ t'.timeNow) := by
  have hu := onCourse_after hs now pre
  have hu' := onCourse_after hs now (pre ++ t :: mid)
  have hafter : after start now (pre ++ t :: mid) = signals.final (after start now pre) (t :: mid) :=
    List.foldl_append
  rw [updates_append] at hu'
  have hlater : t.timeNow - (after start now pre).cells.startingTime > timeUp →
      1 ≤ updates (after start now pre) (t :: mid) := by
    intro hup
    rw [updates, if_pos hup]
    exact Nat.le_add_right 1 _
  constructor
  · intro he he'
    obtain ⟨hup, hbelow, habove⟩ := hu.of_a1 hs he
    obtain ⟨hup', hbelow', habove'⟩ := hu'.of_a1 hs he'
    have hpos := hlater hup
    rw [hafter] at hup'
    have htime := update_apart hclock hup hup'
    have hcount := up_apart (hs serving) (Nat.lt_add_of_pos_right hpos) hbelow habove hbelow' habove'
    omega
  · intro he he'
    obtain ⟨hup, habove, hbelow⟩ := hu.of_a2 hs he
    obtain ⟨hup', habove', hbelow'⟩ := hu'.of_a2 hs he'
    have hpos := hlater hup
    rw [hafter] at hup'
    have htime := update_apart hclock hup hup'
    have hcount := down_apart (hs serving) (Nat.lt_add_of_pos_right hpos) habove hbelow habove' hbelow'
    omega

/-- With a call every two seconds, the serving cell at 13 first: a1 after 4 seconds, and again 78 seconds later. -/
theorem servingEvents_apart_tight :
    eventAt (after ![13, 0] 0 (everySecond 1)) ⟨4, 4⟩ = .a1 ∧
      eventAt (after ![13, 0] 0 (everySecond 1 ++ ⟨4, 4⟩ :: (everySecond 40).drop 2)) ⟨82, 82⟩ = .a1 ∧
      (4 : Int) + 78 ≤ 82 := by
  have hs : ∀ i, 0 ≤ (![13, 0] : Fin 2 → Int) i ∧ (![13, 0] : Fin 2 → Int) i ≤ 96 := by decide
  have hclock : ∀ r ∈ (everySecond 40).drop 2, r.timeNow ≤ r.timeReset := by
    intro r hr
    obtain ⟨k, -, rfl⟩ := List.mem_map.1 (List.mem_of_mem_drop hr)
    exact Int.le_refl _
  have hfirst : eventAt (after ![13, 0] 0 (everySecond 1)) ⟨4, 4⟩ = .a1 := by decide +kernel
  have hsecond : eventAt (after ![13, 0] 0 (everySecond 1 ++ ⟨4, 4⟩ :: (everySecond 40).drop 2)) ⟨82, 82⟩ = .a1 := by
    decide +kernel
  have happart : (⟨4, 4⟩ : Reading).timeReset + 78 ≤ (⟨82, 82⟩ : Reading).timeNow :=
    (servingEvents_apart hs 0 (everySecond 1) ((everySecond 40).drop 2) hclock).1 hfirst hsecond
  exact ⟨hfirst, hsecond, happart⟩

end

end SignalCourse
end Lte
