/-
  Xv6.Process.Effect — what an instruction of `Xv6.Process.Sched` can do to the data, said once.

  `Effect d i d'`: instruction `i` turns `d` into `d'`. Each invariant of the data is proved by
  cases on it.
-/
import Xv6.Process.Sched

namespace Xv6.Process

inductive Effect (d : Data) : Instr → Data → Prop
  | same {i : Instr} : Effect d i d
  | dispatch {i : Nat} : d.state i = .runnable → Effect d (.dispatch i) (d.put i { d.procs i with state := .running })
  | setRunnable {p : Nat} : Effect d (.setRunnable p) (d.put p { d.procs p with state := .runnable })
  | sleep {c : Chan} {lk : Lock} {p : Nat} : Effect d (.sleep c lk) { d with naps := upd d.naps p (d.naps p + 1) }
  | setChan {p : Nat} {c : Chan} {lk : Lock} : Effect d (.setChan p c lk) (d.put p { d.procs p with chan := some c })
  | nap {p : Nat} {c : Chan} {lk : Lock} : Effect d (.nap p c lk) (d.put p { d.procs p with state := .sleeping })
  | tidy {p : Nat} {c : Chan} {lk : Lock} : Effect d (.tidy p c lk) (d.put p { d.procs p with chan := none })
  | wake {i : Nat} {c : Option Chan} {g : List Lock} : Effect d (.wakeAt i c g) (d.put i ((d.procs i).wake c))
  | kill {i : Nat} {pid : Int} : Effect d (.killAt i pid) (d.put i (d.procs i).kill)
  | setKilled {p : Nat} : Effect d (.setKilled p) (d.put p { d.procs p with killed := true })
  | alloc {i p : Nat} : d.state i = .unused → Effect d (.allocAt i p) { d with maker := upd d.maker i (some p) }
  | takePid {i p : Nat} : Effect d (.takePid i p) { d with nextpid := pidSucc d.nextpid }
  | setUsed {i p : Nat} {pid : Int} : Effect d (.setUsed i p pid)
    (d.put i { d.procs i with pid := pid, state := .used })
  | memFail {i p : Nat} : Effect d (.allocMem i p) (d.put i (d.procs i).freeproc)
  | mem {i p : Nat} : Effect d (.allocMem i p) (d.put i { d.procs i with trapframe := true, pagetable := true })
  | copyFail {i p : Nat} : Effect d (.forkCopy i p) (d.put i (d.procs i).freeproc)
  | copy {i p : Nat} : Effect d (.forkCopy i p) (d.put i ((d.procs i).inherit (d.procs p)))
  | parent {i p : Nat} : Effect d (.forkParent i p) (d.put i { d.procs i with parent := some p })
  | run {i p : Nat} : Effect d (.forkRun i p) (d.put i { d.procs i with state := .runnable })
  | closed {p : Nat} : Effect d (.exitClosed p) (d.put p (d.procs p).close)
  | reparent {i p : Nat} {status : Int} : (d.procs i).parent = some p →
      Effect d (.exitReparent i p status) (d.put i { d.procs i with parent := some initproc })
  | zombie {p : Nat} {status : Int} : Effect d (.exitZombie p status) (d.setZombie p status)
  | reap {i p : Nat} : d.state i = .zombie → Effect d (.waitAt i p) (d.reap i)
  | take {n p : Nat} : d.locked n = false → Effect d (.sleepLoop n p) (d.takeLock n p)
  | takeFree {n p : Nat} : d.locked n = false → Effect d (.takeFree n p) (d.takeLock n p)
  | free {n p : Nat} : p ∈ d.holders n → Effect d (.freeSleep n p) (d.freeLock n p)
  | own {k : Ctx} {held : List Nat} {p sz : Nat} {ofile : Nat → Option Nat} {cwd : Option Nat} :
      Effect d (.code k held) (d.put p { d.procs p with sz := sz, ofile := ofile, cwd := cwd })

variable {me : Option Nat} {d d' : Data} {ch : Choice} {i : Instr} {is : List Instr} {sp : Option Nat}

theorem withProc_ok {f : Nat → Option Res} (he : withProc me f = some (.ok d' is sp)) :
    ∃ p, me = some p ∧ f p = some (.ok d' is sp) := by
  cases me with
  | none => cases he
  | some p => exact ⟨p, rfl, he⟩

theorem codeOp_effect {k : Ctx} {held : List Nat} {o : Op} (he : codeOp me d k held o = some (.ok d' is sp)) :
    Effect d (.code k held) d' := by
  cases o with
  | own sz ofile cwd =>
    simp only [codeOp] at he
    split at he
    · obtain ⟨p, -, he⟩ := withProc_ok he
      cases he
      exact .own
    · cases he
  | _ =>
    simp only [codeOp, next, withProc] at he
    repeat' split at he
    all_goals cases he
    all_goals exact .same

theorem exec_effect (he : exec me d ch i = some (.ok d' is sp)) : Effect d i d' := by
  cases i with
  | dispatch i =>
    simp only [exec, next] at he
    split at he <;> cases he
    · exact .dispatch ‹_›
    · exact .same
  | setRunnable p =>
    cases he
    exact .setRunnable
  | sleep c lk =>
    obtain ⟨p, -, he⟩ := withProc_ok he
    cases he
    exact .sleep
  | setChan p c lk =>
    cases he
    exact .setChan
  | nap p c lk =>
    cases he
    exact .nap
  | tidy p c lk =>
    cases he
    exact .tidy
  | wakeAt i c g =>
    cases he
    exact .wake
  | killAt i pid =>
    simp only [exec, next] at he
    split at he <;> cases he
    · exact .kill
    · exact .same
  | setKilled p =>
    cases he
    exact .setKilled
  | allocAt i p =>
    simp only [exec, next] at he
    split at he <;> cases he
    · exact .alloc ‹_›
    · exact .same
  | takePid i p =>
    cases he
    exact .takePid
  | setUsed i p pid =>
    cases he
    exact .setUsed
  | allocMem i p =>
    cases ch <;> cases he
    · exact .mem
    · exact .memFail
  | forkCopy i p =>
    cases ch <;> cases he
    · exact .copy
    · exact .copyFail
  | forkParent i p =>
    cases he
    exact .parent
  | forkRun i p =>
    cases he
    exact .run
  | exitClosed p =>
    cases he
    exact .closed
  | exitReparent i p status =>
    simp only [exec, next] at he
    repeat' split at he
    all_goals cases he
    · exact .reparent ‹_›
    · exact .same
    · exact .same
  | exitZombie p status =>
    cases he
    exact .zombie
  | waitAt i p =>
    simp only [exec, next] at he
    repeat' split at he
    all_goals cases he
    · exact .same
    · exact .reap ‹_›
    · exact .same
  | sleepLoop n p =>
    simp only [exec, next] at he
    split at he <;> cases he
    · exact .same
    · rename_i hl
      exact .take (by simpa using hl)
  | takeFree n p =>
    simp only [exec, next] at he
    split at he <;> cases he
    rename_i hl
    exact .takeFree (by simpa using hl)
  | freeSleep n p =>
    simp only [exec, next] at he
    split at he <;> cases he
    exact .free ‹_›
  | code k held =>
    cases ch with
    | op o => exact codeOp_effect he
    | _ => cases he
  -- the rest only chooses what comes next
  | yield | forkret | checkKilled | fork | wait | acquiresleep | releasesleep =>
    obtain ⟨p, -, he⟩ := withProc_ok he
    cases he
    exact .same
  | _ =>
    simp only [exec, next, withProc] at he
    repeat' split at he
    all_goals cases he
    all_goals exact .same

/-- Only `allocproc` resets a context. -/
theorem exec_spawn {q : Nat} (he : exec me d ch i = some (.ok d' is (some q))) : ∃ p, i = .allocMem q p := by
  cases i with
  | allocMem i p =>
    simp only [exec, next] at he
    split at he <;> cases he
    exact ⟨p, rfl⟩
  | code k held =>
    simp only [exec] at he
    split at he
    · rename_i o
      cases o <;> simp only [codeOp, next, withProc] at he <;> repeat' split at he
      all_goals cases he
    · cases he
  | _ =>
    simp only [exec, next, withProc] at he
    repeat' split at he
    all_goals cases he

end Xv6.Process
