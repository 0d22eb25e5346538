import Moxia.Lib.Run
import Moxia.Task.Find

/-!
# The run queues

`QueueInv`: the queues hold every running task at its level and nothing else. `SchedInv` adds what
makes `CurrentTask()` meaningful: the queue of `current_level_` is not empty, and unless a level
change is pending no queue above it is non-empty. `RotateCurrentRunQueue` leaves no level change
pending and puts `current_level_` at the highest non-empty level (`rotate_spec`). Each operation
keeps `SchedInv` and never gets stuck, from which `runQueue_invariant` follows by induction on the
run.
-/

namespace Moxia.TaskManager

open Lib

variable {tm : TaskManager} {i lv : Nat} {t : Task}

/-- The queues agree with the tasks. -/
structure QueueInv (tm : TaskManager) : Prop where
  nodup : (tm.tasks.map (·.id)).Nodup
  id_le : ∀ t ∈ tm.tasks, t.id ≤ tm.latestId
  level_le : ∀ t ∈ tm.tasks, t.level ≤ kMaxLevel
  holds : tm.running.Holds tm.placement
  /-- The idle task is never put to sleep, so some queue is never empty. -/
  idle : ∃ t, tm.find idleId = some t ∧ t.running = true

namespace QueueInv

theorem placed_le (h : QueueInv tm) (hp : tm.placement i = some lv) : lv ≤ kMaxLevel := by
  obtain ⟨t, ht, -, rfl⟩ := find_of_placement hp
  exact h.level_le t (find_mem ht)

theorem level_of_mem (h : QueueInv tm) (hi : i ∈ tm.running lv) : lv ≤ kMaxLevel :=
  h.placed_le (h.holds.mem_iff.1 hi)

theorem level_of_ne_nil (h : QueueInv tm) (hne : tm.running lv ≠ []) : lv ≤ kMaxLevel := by
  obtain ⟨x, hx⟩ := List.exists_mem_of_ne_nil _ hne
  exact h.level_of_mem hx

theorem exists_ne_nil (h : QueueInv tm) : ∃ lv ≤ kMaxLevel, tm.running lv ≠ [] := by
  obtain ⟨t, ht, hr⟩ := h.idle
  have hp : tm.placement idleId = some t.level := by rw [placement_of_find ht, if_pos hr]
  exact ⟨t.level, h.placed_le hp, List.ne_nil_of_mem (h.holds.mem_iff.2 hp)⟩

theorem placement_of_mem (h : QueueInv tm) (ht : t ∈ tm.tasks) :
    tm.placement t.id = if t.running then some t.level else none :=
  placement_of_find (find_of_mem h.nodup ht)

theorem find_fresh (h : QueueInv tm) : tm.find (tm.latestId + 1) = none := by
  cases ht : tm.find (tm.latestId + 1) with
  | none => rfl
  | some t =>
    have := h.id_le t (find_mem ht)
    rw [find_id ht] at this
    omega

theorem update (h : QueueInv tm) (ht : tm.find i = some t) {f : Task → Task}
    (hf : ∀ t, (f t).id = t.id)
    (hl : ∀ t, t.level ≤ kMaxLevel → (f t).level ≤ kMaxLevel)
    {q : LevelQueues Nat}
    (hq : q.Holds
    (Function.update tm.placement i (if (f t).running then some (f t).level else none)))
    (hidle : i = idleId → (f t).running = true) : QueueInv { tm.modify i f with running := q } where
  nodup := by
    show ((tm.modify i f).tasks.map (·.id)).Nodup
    rw [ids_modify hf]
    exact h.nodup
  id_le t' ht' := by
    obtain ⟨t₀, ht₀, rfl⟩ := mem_modify ht'
    have := h.id_le t₀ ht₀
    split
    · rwa [hf]
    · exact this
  level_le t' ht' := by
    obtain ⟨t₀, ht₀, rfl⟩ := mem_modify ht'
    have := h.level_le t₀ ht₀
    split
    · exact hl t₀ this
    · exact this
  holds := hq.congr fun x => by rw [← placement_modify hf ht]; rfl
  idle := by
    obtain ⟨t', ht', hr'⟩ := h.idle
    by_cases hi : i = idleId
    · subst hi
      exact ⟨f t, find_modify_self hf ht, hidle rfl⟩
    · exact ⟨t', by
        show (tm.modify i f).find idleId = some t'
        rw [find_modify hf, if_neg (Ne.symm hi), ht'], hr'⟩

theorem modify (h : QueueInv tm) {f : Task → Task} (hf : ∀ t, (f t).id = t.id)
    (hr : ∀ t, (f t).running = t.running) (hl : ∀ t, (f t).level = t.level) :
    QueueInv (tm.modify i f) := by
  cases ht : tm.find i with
  | some t =>
    refine h.update ht hf (fun t h => by rwa [hl]) (h.holds.congr fun x => ?_) fun hi => ?_
    · rw [hr, hl, ← placement_of_find ht, Function.update_eq_self]
    · subst hi
      obtain ⟨t', ht', hr'⟩ := h.idle
      rw [ht] at ht'
      obtain rfl := Option.some.inj ht'
      rw [hr, hr']
  | none =>
    have hnot : ∀ t ∈ tm.tasks, t.id ≠ i := by
      rintro t ht' rfl
      obtain ⟨t', ht''⟩ := exists_find ht'
      rw [ht] at ht''
      cases ht''
    have hsame : (tm.modify i f).tasks = tm.tasks := by
      simp only [TaskManager.modify]
      exact (List.map_congr_left fun t ht' => if_neg (hnot t ht')).trans (List.map_id _)
    exact ⟨by rw [hsame]; exact h.nodup, by rw [hsame]; exact h.id_le, by
      rw [hsame]; exact h.level_le,
      h.holds.congr fun x => placement_congr hsame, by simp only [find_congr hsame]; exact h.idle⟩

theorem of_eq (h : QueueInv tm) {tm' : TaskManager} (ht : tm'.tasks = tm.tasks)
    (hl : tm'.latestId = tm.latestId) (hr : tm'.running = tm.running) : QueueInv tm' := by
  refine ⟨?_, ?_, ?_, ?_, ?_⟩
  · rw [ht]; exact h.nodup
  · rw [ht, hl]; exact h.id_le
  · rw [ht]; exact h.level_le
  · rw [hr]; exact h.holds.congr fun x => placement_congr ht
  · rw [find_congr ht]; exact h.idle

/-- The queues are rearranged without moving a task to another level. -/
theorem requeue (h : QueueInv tm) {q : LevelQueues Nat} (hq : q.Holds tm.placement) :
    QueueInv { tm with running := q } :=
  ⟨h.nodup, h.id_le, h.level_le, hq, h.idle⟩

end QueueInv

/-- `QueueInv` and a meaningful current level. -/
structure SchedInv (tm : TaskManager) : Prop extends QueueInv tm where
  current : tm.running tm.currentLevel ≠ []
  highest : tm.levelChanged = false → ∀ lv, tm.currentLevel < lv → tm.running lv = []

namespace SchedInv

theorem exists_current (h : SchedInv tm) : ∃ c rest t, tm.running tm.currentLevel = c :: rest ∧
    tm.currentTask = some c ∧ tm.find c = some t ∧ t.running = true ∧
      t.level = tm.currentLevel := by
  cases hq : tm.running tm.currentLevel with
  | nil => exact absurd hq h.current
  | cons c rest =>
    obtain ⟨t, ht, hr, hl⟩ := find_of_placement (h.holds.head_eq hq)
    exact ⟨c, rest, t, rfl, by simp [currentTask, hq], ht, hr, hl⟩

/-- Exit codes and those who wait for them do not matter to the queues. -/
theorem maps (h : SchedInv tm) (codes : Nat → Option Int) (waiters : Nat → Option Nat) :
    SchedInv { tm with finishTasks := codes, finishWaiter := waiters } where
  toQueueInv := h.toQueueInv.of_eq rfl rfl rfl
  current := h.current
  highest := h.highest

end SchedInv

/-- What `RotateCurrentRunQueue` leaves: the queues `q`, no level change pending, and the highest
non-empty level as the current one. -/
structure Rotated (tm : TaskManager) (q : LevelQueues Nat) (tm' : TaskManager) : Prop where
  tasks : tm'.tasks = tm.tasks
  latestId : tm'.latestId = tm.latestId
  running : tm'.running = q
  finishTasks : tm'.finishTasks = tm.finishTasks
  finishWaiter : tm'.finishWaiter = tm.finishWaiter
  levelChanged : tm'.levelChanged = false
  current : q tm'.currentLevel ≠ []
  highest : ∀ k, tm'.currentLevel < k → k ≤ kMaxLevel → q k = []

/-- `RotateCurrentRunQueue` takes the front task out of the current queue, or moves it to its
end. -/
theorem rotate_spec {c : Nat} {rest : List Nat} (hq : tm.running tm.currentLevel = c :: rest)
    (sleep : Bool)
    (hhigh : tm.levelChanged = false → ∀ lv, tm.currentLevel < lv → tm.running lv = [])
    {q : LevelQueues Nat}
    (hdef : q = Function.update tm.running tm.currentLevel (if sleep then rest else rest ++ [c]))
    (hne : ∃ lv ≤ kMaxLevel, q lv ≠ []) :
    ∃ tm', tm.rotateCurrentRunQueue sleep = some (tm', c) ∧ Rotated tm q tm' := by
  obtain ⟨lv₀, hlv₀, hne₀⟩ := hne
  obtain ⟨top, htop⟩ := LevelQueues.highest_isSome (Nat.lt_succ_of_le hlv₀) hne₀
  obtain ⟨-, htopne, htophigh⟩ := LevelQueues.highest_eq_some_iff.1 htop
  set queue := if sleep then rest else rest ++ [c] with hqueue
  have hset : tm.setQueue tm.currentLevel queue = { tm with running := q } := by rw [hdef]; rfl
  simp only [rotateCurrentRunQueue, hq, ← hqueue, hset]
  by_cases hemp : queue.isEmpty = true ∨ tm.levelChanged = true
  · -- the level is chosen anew
    have hch : (if queue.isEmpty then { tm with running := q, levelChanged := true }
        else { tm with running := q }) = { tm with running := q, levelChanged := true } := by
      split
      · rfl
      · rename_i hne'
        rw [← hemp.resolve_left hne']
    refine ⟨_, by rw [hch], ?_⟩
    simp only [chooseLevel, htop, if_true, Option.getD_some]
    exact ⟨rfl, rfl, rfl, rfl, rfl, rfl, htopne, fun k hk hkm =>
      htophigh k hk (Nat.lt_succ_of_le hkm)⟩
  · rw [not_or, Bool.not_eq_true, Bool.not_eq_true] at hemp
    have hcur : q tm.currentLevel = queue := by rw [hdef, Function.update_self]
    simp only [hemp.1, Bool.false_eq_true, if_false, chooseLevel, hemp.2]
    refine ⟨_, rfl, rfl, rfl, rfl, rfl, rfl, rfl, ?_, fun k hk _ => ?_⟩
    · intro hnil
      rw [← hcur, hnil] at hemp
      simp at hemp
    · rw [hdef, Function.update_of_ne (Nat.ne_of_gt hk)]
      exact hhigh hemp.2 k hk

theorem Rotated.schedInv {q : LevelQueues Nat} {tm' : TaskManager} (h : Rotated tm q tm')
    (hinv : QueueInv { tm with running := q }) : SchedInv tm' := by
  have hinv' : QueueInv tm' := hinv.of_eq h.tasks h.latestId h.running
  refine { toQueueInv := hinv', current := by rw [h.running]; exact h.current,
           highest := fun _ k hk => ?_ }
  by_contra hk'
  have hle := hinv'.level_of_ne_nil hk'
  rw [h.running] at hk'
  exact hk' (h.highest k hk hle)

/-! ### One lemma for each operation -/

theorem SchedInv.newTask (h : SchedInv tm) : SchedInv tm.newTask := by
  have hfind : ∀ j, j ≠ tm.latestId + 1 → tm.newTask.find j = tm.find j :=
    fun j => find_newTask_of_ne
  have hplace : ∀ j, tm.newTask.placement j = tm.placement j := by
    intro j
    by_cases hj : j = tm.latestId + 1
    · subst hj
      simp [placement, find_newTask_self h.find_fresh, h.find_fresh]
    · simp only [placement, hfind j hj]
  have hmem : ∀ t ∈ tm.newTask.tasks, t ∈ tm.tasks ∨ t = { id := tm.latestId + 1 } := by
    intro t ht
    simpa [TaskManager.newTask] using ht
  obtain ⟨t, ht, hr⟩ := h.idle
  have hidle : idleId ≠ tm.latestId + 1 := by
    intro heq
    have := h.id_le t (find_mem ht)
    rw [find_id ht] at this
    omega
  refine { nodup := ?_, id_le := ?_, level_le := ?_, holds := h.holds.congr hplace, idle := ?_,
           current := h.current, highest := h.highest }
  · simp only [TaskManager.newTask, List.map_append, List.map_cons, List.map_nil]
    refine List.Nodup.append h.nodup (List.nodup_singleton _) ?_
    simp only [List.disjoint_singleton, List.mem_map, not_exists, not_and]
    intro x hx heq
    have := h.id_le x hx
    omega
  · intro x hx
    rcases hmem x hx with hx | rfl
    exacts [Nat.le_succ_of_le (h.id_le x hx), Nat.le_refl _]
  · intro x hx
    rcases hmem x hx with hx | rfl
    exacts [h.level_le x hx, show 1 ≤ kMaxLevel by decide]
  · exact ⟨t, by rw [hfind _ hidle, ht], hr⟩

theorem SchedInv.switchTask (h : SchedInv tm) (ctx : TaskContext) :
    ∃ tm' cpu, tm.switchTask ctx = some (tm', cpu) ∧ SchedInv tm' ∧ tm'.levelChanged = false := by
  obtain ⟨c, rest, t, hq, hcur, ht, hr, hl⟩ := h.exists_current
  set tm₁ := tm.modify c (·.setContext ctx) with htm₁
  have h₁ : QueueInv tm₁ := h.toQueueInv.modify (fun _ => rfl) (fun _ => rfl) (fun _ => rfl)
  have hq₁ : tm₁.running tm₁.currentLevel = c :: rest := hq
  have hinv₁ := h₁.requeue (h₁.holds.perm tm₁.currentLevel (l := rest ++ [c])
    (by rw [hq₁]; exact List.perm_append_singleton c rest))
  obtain ⟨tm', hrot, hrotated⟩ := rotate_spec hq₁ false h.highest rfl hinv₁.exists_ne_nil
  have hinv := hrotated.schedInv hinv₁
  obtain ⟨c', rest', t', -, hcur', ht', -, -⟩ := hinv.exists_current
  have hrun : tm.switchTask ctx = if c' ≠ c then some (tm', t'.context) else some (tm', ctx) := by
    simp only [TaskManager.switchTask, hcur, ← htm₁, Option.bind_eq_bind, Option.bind_some,
      hrot, hcur', ht']
  rw [hrun]
  split
  · exact ⟨_, _, rfl, hinv, hrotated.levelChanged⟩
  · exact ⟨_, _, rfl, hinv, hrotated.levelChanged⟩

/-- `Sleep` of a task other than the idle task. Only putting the current task to sleep changes the
current task. -/
theorem SchedInv.sleep (h : SchedInv tm) (ht : tm.find i = some t) (hi : i ≠ idleId)
    (cpu : TaskContext) :
    ∃ tm' cpu', tm.sleep i cpu = some (tm', cpu') ∧ SchedInv tm' ∧
      (tm.currentTask ≠ some i → tm'.currentTask = tm.currentTask) := by
  by_cases hr : t.running = true
  swap
  · refine ⟨tm, cpu, ?_, h, fun _ => rfl⟩
    simp [TaskManager.sleep, ht, hr]
  have hplace : tm.placement i = some t.level := by rw [placement_of_find ht, if_pos hr]
  obtain ⟨c, rest, tc, hq, hcur, -, -, -⟩ := h.exists_current
  set tm₁ := tm.modify i (·.setRunning false) with htm₁
  have hupd : ∀ {q : LevelQueues Nat}, q.Holds (Function.update tm.placement i none) →
      QueueInv { tm₁ with running := q } := fun hq =>
    h.toQueueInv.update ht (f := (·.setRunning false)) (fun _ => rfl) (fun _ h => h)
      (by simpa [Task.setRunning] using hq) (fun h => absurd h hi)
  have hq₁ : tm₁.running tm₁.currentLevel = c :: rest := hq
  by_cases hic : i = c
  · subst hic
    have hinv₁ := hupd (h.holds.popFront hq)
    obtain ⟨tm', hrot, hrotated⟩ := rotate_spec hq₁ true h.highest rfl hinv₁.exists_ne_nil
    have hinv := hrotated.schedInv hinv₁
    obtain ⟨c', rest', t', -, hcur', ht', -, -⟩ := hinv.exists_current
    refine ⟨tm'.modify i (·.setContext cpu), t'.context, ?_, ?_, fun hne => absurd hcur hne⟩
    · simp only [TaskManager.sleep, ht, hr, ← htm₁, hq₁, hrot, hcur', ht', Option.bind_eq_bind,
        Option.bind_some, Bool.not_true, Bool.false_eq_true, if_false, if_true]
    · exact { toQueueInv := hinv.toQueueInv.modify (fun _ => rfl) (fun _ => rfl) (fun _ => rfl)
              current := hinv.current
              highest := hinv.highest }
  · set q := Function.update tm.running t.level ((tm.running t.level).filter (· ≠ i)) with hqdef
    obtain ⟨rest', hfront⟩ : ∃ rest', q tm.currentLevel = c :: rest' :=
      LevelQueues.front_erase hq hic t.level
    refine ⟨{ tm₁ with running := q }, cpu, ?_, ?_, fun _ => ?_⟩
    · simp only [TaskManager.sleep, ht, hr, ← htm₁, hq₁, Option.bind_eq_bind, Option.bind_some,
        Bool.not_true, Bool.false_eq_true, if_false, if_neg hic]
      rfl
    · refine { toQueueInv := hupd (h.holds.erase_filter hplace), current := ?_,
               highest := fun hch lv hlv => ?_ }
      · show q tm.currentLevel ≠ []
        rw [hfront]
        exact List.cons_ne_nil _ _
      · exact LevelQueues.erase_nil (h.highest hch lv hlv) t.level i
    · rw [hcur]
      show (q tm.currentLevel).head? = some c
      rw [hfront, List.head?_cons]

theorem raise_eq (tm : TaskManager) (n : Nat) :
    (if n > tm.currentLevel then { tm with levelChanged := true } else tm) =
    { tm with levelChanged := if n > tm.currentLevel then true else tm.levelChanged } := by
  split <;> rfl

/-- A pending level change is remembered, whatever is woken after it. -/
theorem SchedInv.of_raised (tm : TaskManager) {tm' : TaskManager} {n : Nat} (h : QueueInv tm')
    (hcur : tm'.running tm'.currentLevel ≠ []) (hcl : tm'.currentLevel = tm.currentLevel)
    (hch : tm'.levelChanged = if n > tm.currentLevel then true else tm.levelChanged)
    (hhigh : tm.levelChanged = false → ∀ lv, tm.currentLevel < lv → lv ≠ n → tm'.running lv = []) :
    SchedInv tm' := by
  refine { toQueueInv := h, current := hcur, highest := fun hf lv hlv => ?_ }
  rw [hch] at hf
  split at hf
  · cases hf
  · rw [hcl] at hlv
    exact hhigh hf lv hlv (by omega)

theorem SchedInv.changeLevelRunning (h : SchedInv tm) (ht : tm.find i = some t)
    (hr : t.running = true)
    {level : Int} (hlevel : level ≤ kMaxLevel) :
    ∃ tm', tm.changeLevelRunning t level = some tm' ∧ SchedInv tm' ∧ tm'.currentTask =
      tm.currentTask := by
  by_cases hkeep : level < 0 ∨ level = t.level
  · exact ⟨tm, by rw [TaskManager.changeLevelRunning, if_pos hkeep], h, rfl⟩
  obtain ⟨n, rfl⟩ := Int.eq_ofNat_of_zero_le (Int.not_lt.1 fun hlt => hkeep (.inl hlt))
  have hn : n ≤ kMaxLevel := by exact_mod_cast hlevel
  have hnt : n ≠ t.level := fun heq => hkeep (.inr (by exact_mod_cast heq))
  have hid : t.id = i := find_id ht
  have hplace : tm.placement i = some t.level := by rw [placement_of_find ht, if_pos hr]
  obtain ⟨c, rest, tc, hq, hcur, -, -, -⟩ := h.exists_current
  -- the task is taken out of its queue and put into the queue of level `n`
  have hupd : ∀ {q : LevelQueues Nat} {l : List Nat},
      q.Holds (Function.update tm.placement i none) → l.Perm (i :: q n) →
      QueueInv { tm.modify i (·.setLevel n) with running := Function.update q n l } := by
    intro q l hholds hperm
    refine h.toQueueInv.update (f := (·.setLevel n)) ht (fun _ => rfl) (fun _ _ => hn)
      ?_ (fun _ => hr)
    have := hholds.push n (by simp) hperm
    simpa [Task.setLevel, hr] using this
  simp only [TaskManager.changeLevelRunning, if_neg hkeep, if_neg (Int.not_lt.2 hlevel), hq, hid,
    Int.toNat_natCast]
  by_cases hic : i = c
  · -- the current task itself: the current level follows it
    subst hic
    rw [if_neg (not_not.2 rfl)]
    have hlv : t.level = tm.currentLevel := by
      rw [h.holds.head_eq hq] at hplace
      exact (Option.some.inj hplace).symm
    set q := Function.update tm.running tm.currentLevel rest with hqdef
    have hinv := hupd (h.holds.popFront hq) (List.Perm.refl _)
    have hself : Function.update q n (i :: q n) n = i :: q n := Function.update_self ..
    split
    · rename_i hge
      refine ⟨_, rfl, ?_, ?_⟩
      · refine { toQueueInv := hinv.of_eq rfl rfl rfl, current := ?_,
                 highest := fun hch lv hlv' => ?_ }
        · show Function.update q n (i :: q n) n ≠ []
          rw [hself]
          exact List.cons_ne_nil _ _
        · have hlt : n < lv := hlv'
          show Function.update q n (i :: q n) lv = []
          have hge' : n ≥ tm.currentLevel := hge
          rw [Function.update_of_ne (by omega), hqdef, Function.update_of_ne (by omega)]
          exact h.highest hch lv (by omega)
      · rw [hcur]
        show (Function.update q n (i :: q n) n).head? = some i
        rw [hself, List.head?_cons]
    · refine ⟨_, rfl, ?_, ?_⟩
      · refine { toQueueInv := hinv.of_eq rfl rfl rfl, current := ?_, highest := fun hch => ?_ }
        · show Function.update q n (i :: q n) n ≠ []
          rw [hself]
          exact List.cons_ne_nil _ _
        · cases hch
      · rw [hcur]
        show (Function.update q n (i :: q n) n).head? = some i
        rw [hself, List.head?_cons]
  · rw [if_pos hic]
    set q := Function.update tm.running t.level ((tm.running t.level).filter (· ≠ i)) with hqdef
    have hinv :=
      hupd (h.holds.erase_filter hplace) (l := q n ++ [i]) (List.perm_append_singleton i _)
    obtain ⟨rest₁, herased⟩ : ∃ rest', q tm.currentLevel = c :: rest' :=
      LevelQueues.front_erase hq hic t.level
    obtain ⟨rest', hfront⟩ := LevelQueues.front_pushBack herased n i
    have hempty : tm.levelChanged = false → ∀ lv, tm.currentLevel < lv → lv ≠ n →
        Function.update q n (q n ++ [i]) lv = [] := by
      intro hch lv hlv hne
      rw [Function.update_of_ne hne]
      exact LevelQueues.erase_nil (h.highest hch lv hlv) t.level i
    refine ⟨{ tm.modify i (·.setLevel n) with
        running := Function.update q n (q n ++ [i])
        levelChanged := if n > tm.currentLevel then true else tm.levelChanged }, ?_, ?_, ?_⟩
    · exact congrArg some (raise_eq _ n)
    · refine SchedInv.of_raised tm (hinv.of_eq rfl rfl rfl) ?_ rfl rfl hempty
      show Function.update q n (q n ++ [i]) tm.currentLevel ≠ []
      rw [hfront]
      exact List.cons_ne_nil _ _
    · rw [hcur]
      show (Function.update q n (q n ++ [i]) tm.currentLevel).head? = some c
      rw [hfront, List.head?_cons]

theorem SchedInv.wakeup (h : SchedInv tm) (ht : tm.find i = some t) {level : Int}
    (hlevel : level ≤ kMaxLevel) :
    ∃ tm', tm.wakeup i level = some tm' ∧ SchedInv tm' ∧ tm'.currentTask = tm.currentTask := by
  by_cases hr : t.running = true
  · obtain ⟨tm', htm', hrest⟩ := h.changeLevelRunning ht hr hlevel
    exact ⟨tm', by simp [TaskManager.wakeup, ht, hr, htm'], hrest⟩
  set n := if level < 0 then t.level else level.toNat with hndef
  have hn : n ≤ kMaxLevel := by
    rw [hndef]
    split
    · exact h.level_le t (find_mem ht)
    · omega
  have hplace : tm.placement i = none := by rw [placement_of_find ht, if_neg hr]
  obtain ⟨c, rest, tc, hq, hcur, -, -, -⟩ := h.exists_current
  have hinv : QueueInv { tm.modify i (fun t => (t.setLevel n).setRunning true) with
      running := Function.update tm.running n (tm.running n ++ [i]) } := by
    refine h.toQueueInv.update (f := fun t => (t.setLevel n).setRunning true) ht (fun _ => rfl)
      (fun _ _ => hn) ?_ (fun _ => rfl)
    have := h.holds.push n hplace (List.perm_append_singleton i (tm.running n))
    simpa [Task.setLevel, Task.setRunning] using this
  obtain ⟨rest', hfront⟩ := LevelQueues.front_pushBack hq n i
  refine ⟨{ tm.modify i (fun t => (t.setLevel n).setRunning true) with
      running := Function.update tm.running n (tm.running n ++ [i])
      levelChanged := if n > tm.currentLevel then true else tm.levelChanged }, ?_, ?_, ?_⟩
  · simp only [TaskManager.wakeup, ht, Option.bind_eq_bind, Option.bind_some, if_neg hr,
      if_neg (Int.not_lt.2 hlevel), ← hndef]
    exact congrArg some (raise_eq _ n)
  · refine SchedInv.of_raised tm (hinv.of_eq rfl rfl rfl) ?_ rfl rfl fun hch lv hlv hne => ?_
    · show Function.update tm.running n (tm.running n ++ [i]) tm.currentLevel ≠ []
      rw [hfront]
      exact List.cons_ne_nil _ _
    · show Function.update tm.running n (tm.running n ++ [i]) lv = []
      rw [Function.update_of_ne hne]
      exact h.highest hch lv hlv
  · rw [hcur]
    show (Function.update tm.running n (tm.running n ++ [i]) tm.currentLevel).head? = some c
    rw [hfront, List.head?_cons]

theorem SchedInv.sendMessageTo (h : SchedInv tm) (ht : tm.find i = some t) (msg : Message) :
    ∃ tm', tm.sendMessageTo i msg = some tm' ∧ SchedInv tm' ∧ tm'.currentTask = tm.currentTask := by
  have h₁ : SchedInv (tm.modify i (·.pushMessage msg)) :=
    { toQueueInv := h.toQueueInv.modify (fun _ => rfl) (fun _ => rfl) (fun _ => rfl)
      current := h.current
      highest := h.highest }
  have ht₁ : (tm.modify i (·.pushMessage msg)).find i = some (t.pushMessage msg) :=
    find_modify_self (fun _ => rfl) ht
  have hlevel : (-1 : Int) ≤ kMaxLevel := by decide
  obtain ⟨tm', htm', hinv, hcur⟩ := h₁.wakeup ht₁ hlevel
  exact ⟨tm', by simp [TaskManager.sendMessageTo, ht, htm'], hinv, hcur⟩

theorem SchedInv.finish (h : SchedInv tm) (hcur : tm.currentTask ≠ some idleId)
    (hwaiter : ∀ c w, tm.currentTask = some c → tm.finishWaiter c = some w → tm.Live w ∧ w ≠ c)
    (exitCode : Int) :
    ∃ tm' cpu, tm.finish exitCode = some (tm', cpu) ∧ SchedInv tm' := by
  obtain ⟨c, rest, t, hq, hc, ht, hr, hl⟩ := h.exists_current
  have hci : idleId ≠ c := fun heq => hcur (heq ▸ hc)
  set q := Function.update tm.running tm.currentLevel rest with hqdef
  set erased := fun (tm : TaskManager) =>
    { tm with tasks := tm.tasks.filter fun t => t.id ≠ c } with herased
  have hinv₁ : QueueInv { erased tm with running := q } := by
    refine ⟨?_, fun t ht => ?_, fun t ht => ?_, ?_, ?_⟩
    · exact (List.filter_sublist.map _).nodup h.nodup
    · exact h.id_le t (List.mem_of_mem_filter ht)
    · exact h.level_le t (List.mem_of_mem_filter ht)
    · exact (h.holds.popFront hq).congr fun x => by rw [← placement_filter_ne]; rfl
    · obtain ⟨ti, hti, hri⟩ := h.idle
      refine ⟨ti, ?_, hri⟩
      show (erased tm).find idleId = some ti
      rw [herased, find_filter_ne, if_neg hci, hti]
  obtain ⟨tm', hrot, hrotated⟩ := rotate_spec hq true h.highest rfl hinv₁.exists_ne_nil
  set tm₂ := { erased tm' with finishTasks := Function.update tm'.finishTasks c (some exitCode) }
    with htm₂
  have hrotated₂ : Rotated { erased tm with finishTasks := tm₂.finishTasks } q tm₂ := by
    refine ⟨?_, hrotated.latestId, hrotated.running, rfl, hrotated.finishWaiter,
      hrotated.levelChanged,
      hrotated.current, hrotated.highest⟩
    show tm'.tasks.filter _ = tm.tasks.filter _
    rw [hrotated.tasks]
  have hinv : SchedInv tm₂ := hrotated₂.schedInv (hinv₁.of_eq rfl rfl rfl)
  obtain ⟨tm₃, hw, hinv₃⟩ : ∃ tm₃, tm₂.wakeFinishWaiter c = some tm₃ ∧ SchedInv tm₃ := by
    rw [TaskManager.wakeFinishWaiter]
    split
    · rename_i w hwc
      have hwc : tm.finishWaiter c = some w := by
        rw [← hrotated.finishWaiter]
        exact hwc
      obtain ⟨⟨tw, htw⟩, hne⟩ := hwaiter c w hc hwc
      set tm₂' := { tm₂ with finishWaiter := Function.update tm₂.finishWaiter c none }
      have hinv₂ : SchedInv tm₂' := hinv.maps _ _
      have hfind : tm₂'.find w = some tw := by
        show (erased tm').find w = some tw
        rw [herased, find_filter_ne, if_neg hne, find_congr hrotated.tasks]
        exact htw
      obtain ⟨tm₃, hrun, hinv₃, -⟩ := hinv₂.wakeup hfind (by decide : (-1 : Int) ≤ kMaxLevel)
      exact ⟨tm₃, hrun, hinv₃⟩
    · exact ⟨tm₂, rfl, hinv⟩
  obtain ⟨c', rest', t', -, hc', ht', -, -⟩ := hinv₃.exists_current
  refine ⟨tm₃, t'.context, ?_, hinv₃⟩
  have hstep : tm.finish exitCode = (tm₂.wakeFinishWaiter c).bind fun tm =>
      tm.currentTask.bind fun next => (tm.find next).bind fun next => some (tm, next.context) := by
    simp only [TaskManager.finish, hrot, Option.bind_eq_bind, Option.bind_some]
    rfl
  rw [hstep, hw, Option.bind_some, hc', Option.bind_some, ht', Option.bind_some]

end Moxia.TaskManager
