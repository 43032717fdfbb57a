import SimpleOS.Soundness.Completion
import SimpleOS.Soundness.PrivateMemory

/-! # What the schedule cannot change

The simulator runs the processes on any number of CPUs, in an order that depends on priorities, time slots and the
timer. With frames for all pages that the programs access, what a process computes depends on its own program only.
-/

namespace SimpleOS.Model.Os

open Lib

variable {c N : ℕ} {cfg : Config N} {env : Env} {s t : Os c N} {n : ℕ}

/-- A run of the threads contains a run of the machine, with one step for each executed instruction. -/
private theorem Reachable.mem_run (reached : Reachable cfg env s) :
    ∃ labels, Run (Machine.Exec env) (Os.init cfg : Os c N).mem labels s.mem ∧
      ∀ p, labels.countP (·.1 = p) = (s.executed p).length := by
  apply Reachable.keeps (fun s => ∃ labels, Run (Machine.Exec env) (Os.init cfg : Os c N).mem labels s.mem ∧
    ∀ p, labels.countP (·.1 = p) = (s.executed p).length) reached ⟨[], .start, fun _ => rfl⟩
  intro now label after _ ran moved
  cases moved with
  | clock moved => exact ran
  | cpu moved =>
    cases moved with
    | @run q mem status here completed =>
      obtain ⟨labels, earlier, counted⟩ := ran
      rcases Machine.run_cases completed with ⟨ended, same⟩ | ⟨ins, found, executed⟩
      · refine ⟨labels, ?_, fun p => ?_⟩
        · rw [same]
          exact earlier
        · have kept : Function.update now.executed q (now.executed q ++ Option.toList none) = now.executed := by
            rw [Option.toList_none, List.append_nil, Function.update_eq_self]
          simp only [ended, kept]
          exact counted p
      · have taken : Machine.Exec env now.mem (q, now.sched.runningList) mem := ⟨status, completed⟩
        refine ⟨_, earlier.next taken, fun p => ?_⟩
        simp only [found, List.countP_append, counted p]
        by_cases own : p = q
        · subst own
          simp
        · simp [Ne.symm own, Function.update_of_ne own]
    | _ => exact ran
  | loader moved =>
    cases moved <;> exact ran
  | stop stopped finished => exact ran

/-- In every reachable state, on any number of CPUs, a process is where its program leads on its own. -/
theorem process_alone (frames : cfg.mram = initMemphy n fun _ => 0) (small : n ≤ 8192)
    (enough : ∑ p, frameBudget (cfg.text p) ≤ n) (calls : ∀ p, ∀ ins ∈ cfg.text p, ins.Local)
    (reached : Reachable cfg env s) (p : Fin N) :
    s.mem.view p = Process.next^[(s.executed p).length] (.start (cfg.heap p) (cfg.text p)) := by
  obtain ⟨labels, run, counted⟩ := reached.mem_run
  have initial : (Os.init cfg : Os c N).mem.Initial n := ⟨⟨_, frames⟩, fun P => ⟨cfg.heap P, rfl⟩⟩
  have blank : (Os.init cfg : Os c N).mem.mram.Blank := by
    change cfg.mram.Blank
    rw [frames]
    exact Memphy.blank_init n
  have ready : (Os.init cfg : Os c N).mem.Private n :=
    ⟨⟨initial.owned small, initial.funded small⟩, blank, enough, fun p => by rw [initial.leftPages small]; omega⟩
  rw [ready.view_run calls run p, counted p]
  congr 1
  have unseen : byteSeen (Os.init cfg : Os c N).mem.links (Os.init cfg : Os c N).mem.mram p = fun _ => 0 := by
    funext a
    rw [byteSeen, byteAt, initial.unlinked small _ (by rw [pagePath_length]; omega)]
    rfl
  rw [Machine.view, unseen]
  rfl

/-- Two processes on two CPUs store different bytes at one address, and each sees its own. -/
theorem process_alone_writes :
    let text (p : Fin 2) : List Inst := [⟨.write, if p = 0 then 7 else 9, 3, 5, 0⟩, ⟨.calc, 0, 0, 0, 0⟩]
    let cfg := Config.atOnce 12 text 0
    let env : Env := ⟨.head, fun _ => 0⟩
    ∃ s : Os 2 2, exec cfg env ((wholeRun 0 1).take 28) = some s ∧
      ((s.cpus 0).runTimes, (s.cpus 1).runTimes) = ([0], [1]) ∧
      (∀ p, s.mem.view p = (Process.start (cfg.heap p) (cfg.text p)).next) ∧
      (s.mem.view 0).bytes 4101 = 7 ∧ (s.mem.view 1).bytes 4101 = 9 := by
  intro text cfg env
  have computed : (exec cfg env ((wholeRun 0 1).take 28)).map (fun s : Os 2 2 =>
      (decide (∀ p, (s.executed p).length = 1), (s.cpus 0).runTimes, (s.cpus 1).runTimes)) =
      some (true, [0], [1]) := by decide +kernel
  obtain ⟨s, reached, values⟩ := Option.map_eq_some_iff.mp computed
  obtain ⟨executed, times⟩ := Prod.mk.inj values
  have calls : ∀ p, ∀ ins ∈ cfg.text p, ins.Local := by
    intro p ins member syscall
    obtain rfl | rfl := List.mem_pair.mp member <;> cases syscall
  have alone (p : Fin 2) : s.mem.view p = (Process.start (cfg.heap p) (cfg.text p)).next := by
    have steps := process_alone (n := 12) rfl (by decide) (by decide) calls (.of_exec reached) p
    rw [of_decide_eq_true executed p, Function.iterate_one] at steps
    exact steps
  refine ⟨s, reached, times, alone, ?_, ?_⟩
  · rw [alone]
    decide +kernel
  · rw [alone]
    decide +kernel

end SimpleOS.Model.Os
