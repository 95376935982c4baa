import CornScript.CommandLine
import Mathlib.Tactic.Common

/-! # Flags that override settings

A flag has the value that it was given last, and the values of flags come before the settings of a
file. But zero and the empty text also stand for a flag that was not given. So every other value is
used or refused, and these two are neither: the run goes on as it would without the flag.
-/

namespace CornScript

namespace Config

variable {c : Config} {reason : Invalid}

theorem invalid?_eq_none (h : c.invalid? = none) :
    1 ≤ c.threshold ∧ (Log.Level.ofName? c.level).isSome := by
  unfold invalid? at h
  split at h
  · cases h
  · next hthreshold =>
    split at h
    · cases h
    · next hlevel =>
      rw [Option.isNone_iff_eq_none, ← ne_eq, Option.ne_none_iff_isSome] at hlevel
      exact ⟨Int.not_lt.mp hthreshold, hlevel⟩

theorem invalid?_eq_some (h : c.invalid? = some reason) :
    c.threshold < 1 ∧ reason = .threshold c.threshold ∨
      1 ≤ c.threshold ∧ reason = .level ∧ Log.Level.ofName? c.level = none := by
  unfold invalid? at h
  split at h
  · next hthreshold => exact .inl ⟨hthreshold, (Option.some.inj h).symm⟩
  · next hthreshold =>
    split at h
    · next hlevel =>
      exact .inr ⟨Int.not_lt.mp hthreshold, (Option.some.inj h).symm,
        Option.isNone_iff_eq_none.mp hlevel⟩
    · cases h

theorem invalid?_standard : standard.invalid? = none := by
  decide +kernel

theorem invalid?_of_decode {source : Bytes} (h : decode source = .ok c) : c.invalid? = none := by
  unfold decode at h
  split at h
  · cases h
  · rw [pure_bind] at h
    dsimp only at h
    rw [invalid?_standard] at h
    cases h
    exact invalid?_standard
  · next d _ =>
    generalize ofDocument (source.length + 1) d = r at h
    rcases r with e | ⟨c', _ | _⟩
    · cases h
    · dsimp only [bind, Except.bind] at h
      cases hvalid : c'.invalid? with
      | some =>
        rw [hvalid] at h
        cases h
      | none =>
        rw [hvalid] at h
        cases h
        exact hvalid
    · cases h

end Config

namespace CommandLine

namespace Flags

/-- The flags that are given, one after the other, with their values as they are written. -/
def given : List Bytes → List (Name × Bytes)
  | [] => []
  | arg :: rest => match body? arg with
    | some (some body) =>
      let (name, value) := splitValue body
      match Name.ofText? name, value with
      | Option.none, _ => []
      | some .stats, value => (.stats, value.getD (text "true")) :: given rest
      | some flag, some value => (flag, value) :: given rest
      | some flag, Option.none => match rest with
        | [] => []
        | value :: rest => (flag, value) :: given rest
    | _ => []

def last? (flag : Name) : List (Name × Bytes) → Option Bytes
  | [] => Option.none
  | (name, value) :: rest => (last? flag rest).or (if name = flag then some value else Option.none)

def value? (flag : Name) (args : List Bytes) : Option Bytes :=
  last? flag (given args)

theorem last?_append (flag : Name) (settings more : List (Name × Bytes)) :
    last? flag (settings ++ more) = (last? flag more).or (last? flag settings) := by
  induction settings with
  | nil => exact Option.or_none.symm
  | cons setting settings ih => rw [List.cons_append, last?, ih, last?, Option.or_assoc]

/-- The flags `g` come from `f` by these settings. -/
structure Follows (f g : Flags) (settings : List (Name × Bytes)) : Prop where
  level : g.level = (last? .level settings).getD f.level
  program : g.program = (last? .program settings).getD f.program
  threshold : match last? .threshold settings with
    | some value => Integer.read value = .ok g.threshold
    | Option.none => g.threshold = f.threshold

variable {f g : Flags} {args rest : List Bytes}

theorem Follows.refl (f : Flags) : Follows f f [] :=
  ⟨rfl, rfl, rfl⟩

theorem Follows.trans {h : Flags} {settings more : List (Name × Bytes)}
    (hfg : Follows f g settings) (hgh : Follows g h more) : Follows f h (settings ++ more) := by
  constructor
  case level => rw [last?_append, Option.getD_or, ← hfg.level, hgh.level]
  case program => rw [last?_append, Option.getD_or, ← hfg.program, hgh.program]
  case threshold =>
    have hthreshold := hgh.threshold
    rw [last?_append]
    cases hlast : last? .threshold more with
    | some value =>
      rw [hlast] at hthreshold
      exact hthreshold
    | none =>
      rw [hlast] at hthreshold
      rw [Option.none_or, hthreshold]
      exact hfg.threshold

theorem follows_of_set {flag : Name} {name value : Bytes} (h : f.set name value flag = .ok g) :
    Follows f g [(flag, value)] := by
  cases flag with
  | config | level | program =>
    cases h
    exact ⟨rfl, rfl, rfl⟩
  | threshold =>
    rw [set] at h
    cases hn : Integer.read value with
    | ok n =>
      rw [hn] at h
      cases h
      exact ⟨rfl, rfl, hn⟩
    | error reason =>
      rw [hn] at h
      cases h
  | stats =>
    rw [set] at h
    cases hb : switch? value with
    | some b =>
      rw [hb] at h
      cases h
      exact ⟨rfl, rfl, rfl⟩
    | none =>
      rw [hb] at h
      cases h

theorem follows_of_set_read {flag : Name} {name value : Bytes} {more : List Bytes}
    (h : (f.set name value flag >>= fun f' => f'.read more) = .ok (g, rest))
    (ih : ∀ f', f'.read more = .ok (g, rest) → Follows f' g (given more)) :
    Follows f g ((flag, value) :: given more) := by
  cases hset : f.set name value flag with
  | ok f' =>
    rw [hset] at h
    exact (follows_of_set hset).trans (ih f' h)
  | error e =>
    rw [hset] at h
    cases h

theorem follows_of_read (h : f.read args = .ok (g, rest)) : Follows f g (given args) := by
  fun_induction read f args with
  | case1 =>
    cases h
    exact .refl _
  | case2 f arg more harg | case3 f arg more harg =>
    cases h
    rw [given, harg]
    exact .refl _
  | case4 | case5 | case6 | case9 => cases h
  | case7 f arg more body harg _ name value hflag hname ih =>
    have hgiven : given (arg :: more) = (.stats, value.getD (text "true")) :: given more := by
      simp only [given, harg, hname, hflag]
    rw [hgiven]
    exact follows_of_set_read h ih
  | case8 f arg more body harg _ name flag value hstats hflag hname ih =>
    have hgiven : given (arg :: more) = (flag, value) :: given more := by
      simp only [given, harg, hname, hflag]
    rw [hgiven]
    exact follows_of_set_read h ih
  | case10 f arg body harg _ name flag hstats hflag value more hname ih =>
    have hgiven : given (arg :: value :: more) = (flag, value) :: given more := by
      simp only [given, harg, hname, hflag]
    rw [hgiven]
    exact follows_of_set_read h ih

end Flags

def Rejects (result : Result) (reason : Config.Invalid) : Prop :=
  ∃ log, result = abort log (text "config: " ++ reason.message)

section Plan

variable {w : Surroundings} {args rest : List Bytes} {f : Flags} {c : Config} {log : Log}
  {fuel : Nat} {stdin : Bytes} {refusal : Bytes → Bytes}

theorem invalid?_of_loads (h : (baseConfig w f log refusal).1 = .ok c) : c.invalid? = none := by
  unfold baseConfig at h
  split at h
  · cases h
    exact Config.invalid?_standard
  · split at h
    · next hload =>
      cases h
      unfold loadConfig at hload
      dsimp only at hload
      split at hload
      · cases hload
      · cases hload
      · split at hload
        · next hdecode =>
          cases hload
          exact Config.invalid?_of_decode hdecode
        · cases hload
    · cases h

theorem resolveConfig_of_loads (h : (baseConfig w f log refusal).1 = .ok c) :
    (resolveConfig w f log refusal).1 = match (override f c).invalid? with
      | some reason => .error (text "config: " ++ reason.message)
      | none => .ok (override f c) := by
  rcases hbase : baseConfig w f log refusal with ⟨loaded, log'⟩
  rw [hbase] at h
  dsimp only at h
  rw [resolveConfig, hbase, h]
  dsimp only
  cases (override f c).invalid? <;> rfl

theorem eq_override (h : (baseConfig w f log refusal).1 = .ok c) {cfg : Config} {log' : Log}
    (hcfg : resolveConfig w f log refusal = (.ok cfg, log')) :
    cfg = override f c ∧ (override f c).invalid? = none := by
  have hresolve := resolveConfig_of_loads h
  rw [hcfg] at hresolve
  cases hinvalid : (override f c).invalid? with
  | some reason =>
    rw [hinvalid] at hresolve
    cases hresolve
  | none =>
    rw [hinvalid] at hresolve
    cases hresolve
    exact ⟨rfl, rfl⟩

theorem planFlags_of_invalid (rest : List Bytes)
    (h : (baseConfig w f (.start .info) refusal).1 = .ok c) {reason : Config.Invalid}
    (hinvalid : (override f c).invalid? = some reason) :
    ∃ log, planFlags w f rest refusal = .error (abort log (text "config: " ++ reason.message)) := by
  rcases hresolve : resolveConfig w f (.start .info) refusal with ⟨resolved, log⟩
  have hresolved := resolveConfig_of_loads h
  rw [hresolve, hinvalid] at hresolved
  dsimp only at hresolved
  exact ⟨log, by rw [planFlags, hresolve, hresolved]⟩

theorem planFlags_of_valid (rest : List Bytes)
    (h : (baseConfig w f (.start .info) refusal).1 = .ok c)
    (hvalid : (override f c).invalid? = none) :
    ∃ log, planFlags w f rest refusal = match job w f rest with
      | .error e => .error (abort log e)
      | .ok job => .ok ⟨f, job, (override f c).repl, newSession (override f c) log⟩ := by
  rcases hresolve : resolveConfig w f (.start .info) refusal with ⟨resolved, log⟩
  have hresolved := resolveConfig_of_loads h
  rw [hresolve, hvalid] at hresolved
  dsimp only at hresolved
  rw [planFlags, hresolve, hresolved]
  exact ⟨_, rfl⟩

/-- What can come of flags that are accepted: the settings are refused, there is nothing to run, or
the job is done in a session with these settings. -/
theorem run_cases (hread : Flags.none.read args = .ok (f, rest)) (hrest : rest.length ≤ 1)
    (hload : (baseConfig w f (.start .info) refusal).1 = .ok c) (fuel : Nat) (stdin : Bytes) :
    (∃ reason, (override f c).invalid? = some reason ∧
      Rejects (run fuel w stdin args refusal) reason) ∨
    (override f c).invalid? = none ∧
      ((∃ e log, job w f rest = .error e ∧ run fuel w stdin args refusal = abort log e) ∨
      ∃ p log, job w f rest = .ok p.job ∧ p.session = newSession (override f c) log ∧
        plan w args refusal = .ok p ∧
          run fuel w stdin args refusal = p.finish (p.perform fuel stdin)) := by
  have hplan : plan w args refusal = planFlags w f rest refusal := by
    rw [plan, hread]
    exact if_neg (Nat.not_lt.mpr hrest)
  cases hinvalid : (override f c).invalid? with
  | some reason =>
    obtain ⟨log, hlog⟩ := planFlags_of_invalid rest hload hinvalid
    exact .inl ⟨reason, rfl, log, by rw [run, hplan, hlog]⟩
  | none =>
    obtain ⟨log, hlog⟩ := planFlags_of_valid rest hload hinvalid
    rw [← hplan] at hlog
    cases hjob : job w f rest with
    | error e =>
      rw [hjob] at hlog
      exact .inr ⟨rfl, .inl ⟨e, log, rfl, by rw [run, hlog]⟩⟩
    | ok job =>
      rw [hjob] at hlog
      exact .inr ⟨rfl, .inr ⟨_, log, rfl, rfl, hlog, by rw [run, hlog]⟩⟩

theorem job_of_program (h : f.program ≠ []) :
    job w f rest = .ok (.script (text "<expr>") f.program) := by
  unfold job
  exact if_pos (by simpa using h)

theorem job_of_no_program (h : f.program = []) : job w f [] = .ok .interactive := by
  unfold job
  rw [h]
  rfl

theorem threshold_newSession (h : 1 ≤ c.threshold) :
    ((newSession c log).state.threshold : Int) = c.threshold := by
  have hne : c.threshold.toNat ≠ 0 := by omega
  change ((if c.threshold.toNat = 0 then _ else c.threshold.toNat : Nat) : Int) = c.threshold
  rw [if_neg hne]
  omega

end Plan

section Overrides

variable (w : Surroundings) (args rest : List Bytes) (f : Flags) (c : Config) (fuel : Nat)
  (stdin : Bytes) (refusal : Bytes → Bytes)

/-- The threshold is not refused: the level is none and is refused, or there is nothing to run, or a
session runs that collects at this threshold. -/
def Proceeds (n : Int) : Prop :=
  Log.Level.ofName? (override f c).level = none ∧ Rejects (run fuel w stdin args refusal) .level ∨
  (∃ e log, job w f rest = .error e ∧ run fuel w stdin args refusal = abort log e) ∨
  ∃ p, plan w args refusal = .ok p ∧ (p.session.state.threshold : Int) = n ∧
    run fuel w stdin args refusal = p.finish (p.perform fuel stdin)

structure Overrides : Prop where
  /-- A threshold other than zero is the one of the session, or it is refused. -/
  threshold : ∀ {value n}, Flags.value? .threshold args = some value →
    Integer.read value = .ok n → n ≠ 0 →
      n < 1 ∧ Rejects (run fuel w stdin args refusal) (.threshold n) ∨
      1 ≤ n ∧ Proceeds w args rest f c fuel stdin refusal n
  /-- A program other than the empty text is run, and the loop is not entered. -/
  program : ∀ {source cfg log}, Flags.value? .program args = some source → source ≠ [] →
    resolveConfig w f (.start .info) refusal = (.ok cfg, log) →
      ∃ p, plan w args refusal = .ok p ∧ p.job = .script (text "<expr>") source ∧
        run fuel w stdin args refusal = p.finish (runScript fuel (text "<expr>") source p.session)
  /-- A level other than the empty text is the one of the settings, or it is refused. -/
  level : ∀ {level}, Flags.value? .level args = some level → level ≠ [] →
    (∀ {cfg log}, resolveConfig w f (.start .info) refusal = (.ok cfg, log) → cfg.level = level) ∧
    (Log.Level.ofName? level = none → Rejects (run fuel w stdin args refusal) .level ∨
      ∃ n, n < 1 ∧ Rejects (run fuel w stdin args refusal) (.threshold n))
  /-- The threshold zero is neither used nor refused. -/
  zero : ∀ {value}, Flags.value? .threshold args = some value → Integer.read value = .ok 0 →
    1 ≤ c.threshold ∧ Proceeds w args rest f c fuel stdin refusal c.threshold
  /-- The empty program is not run. -/
  noProgram : ∀ {cfg log}, Flags.value? .program args = some [] → rest = [] →
    resolveConfig w f (.start .info) refusal = (.ok cfg, log) →
      ∃ p, plan w args refusal = .ok p ∧ p.job = .interactive ∧
        run fuel w stdin args refusal = p.finish (Repl.serve fuel p.repl stdin p.session)
  /-- The empty level is neither used nor refused. -/
  noLevel : ∀ {cfg log}, Flags.value? .level args = some [] →
    resolveConfig w f (.start .info) refusal = (.ok cfg, log) → cfg.level = c.level

variable {w args rest f c refusal}

section Given

variable (hread : Flags.none.read args = .ok (f, rest)) {value : Bytes}

include hread

theorem threshold_of_read (h : Flags.value? .threshold args = some value) {n : Int}
    (hn : Integer.read value = .ok n) : f.threshold = n := by
  have hthreshold := (Flags.follows_of_read hread).threshold
  rw [← Flags.value?, h] at hthreshold
  exact Except.ok.inj (hthreshold.symm.trans hn)

theorem level_of_read (h : Flags.value? .level args = some value) : f.level = value := by
  have hlevel := (Flags.follows_of_read hread).level
  rwa [← Flags.value?, h] at hlevel

theorem program_of_read (h : Flags.value? .program args = some value) : f.program = value := by
  have hprogram := (Flags.follows_of_read hread).program
  rwa [← Flags.value?, h] at hprogram

end Given

section Accepted

variable (hread : Flags.none.read args = .ok (f, rest)) (hrest : rest.length ≤ 1)
  (hload : (baseConfig w f (.start .info) refusal).1 = .ok c)

include hread hrest hload

theorem proceeds (h : 1 ≤ (override f c).threshold) :
    Proceeds w args rest f c fuel stdin refusal (override f c).threshold := by
  rcases run_cases hread hrest hload fuel stdin with ⟨reason, hinvalid, hrejects⟩ | ⟨-, hrun⟩
  · rcases Config.invalid?_eq_some hinvalid with ⟨hlt, -⟩ | ⟨-, rfl, hlevel⟩
    · exact absurd h (Int.not_le.mpr hlt)
    · exact .inl ⟨hlevel, hrejects⟩
  · rcases hrun with ⟨e, log, hjob, hrun⟩ | ⟨p, log, -, hsession, hplan, hrun⟩
    · exact .inr (.inl ⟨e, log, hjob, hrun⟩)
    · refine .inr (.inr ⟨p, hplan, ?_, hrun⟩)
      rw [hsession]
      exact threshold_newSession h

theorem exists_plan {cfg : Config} {log : Log} {job' : Job}
    (hcfg : resolveConfig w f (.start .info) refusal = (.ok cfg, log))
    (hjob : job w f rest = .ok job') :
    ∃ p, plan w args refusal = .ok p ∧ p.job = job' ∧
      run fuel w stdin args refusal = p.finish (p.perform fuel stdin) := by
  rcases run_cases hread hrest hload fuel stdin with ⟨reason, hinvalid, -⟩ | ⟨-, hrun⟩
  · rw [(eq_override hload hcfg).2] at hinvalid
    cases hinvalid
  · rcases hrun with ⟨e, -, hjob', -⟩ | ⟨p, -, hjob', -, hplan, hrun⟩
    · rw [hjob] at hjob'
      cases hjob'
    · rw [hjob] at hjob'
      exact ⟨p, hplan, (Except.ok.inj hjob').symm, hrun⟩

theorem rejects_of_invalid {reason : Config.Invalid}
    (hinvalid : (override f c).invalid? = some reason) :
    Rejects (run fuel w stdin args refusal) reason := by
  rcases run_cases hread hrest hload fuel stdin with ⟨reason', hinvalid', hrejects⟩ | ⟨hvalid, -⟩
  · rw [hinvalid] at hinvalid'
    rwa [Option.some.inj hinvalid']
  · rw [hinvalid] at hvalid
    cases hvalid

/-- Zero and the empty text are lost, and every other value of a flag is used or refused. -/
theorem run_overrides (fuel : Nat) (stdin : Bytes) :
    Overrides w args rest f c fuel stdin refusal := by
  constructor
  case threshold =>
    intro value n hvalue hn hne
    have hthreshold : (override f c).threshold = n := by
      rw [override, threshold_of_read hread hvalue hn]
      exact if_pos hne
    rcases Int.lt_or_le n 1 with hlt | hle
    · have hinvalid : (override f c).invalid? = some (.threshold n) := by
        rw [Config.invalid?, hthreshold]
        exact if_pos hlt
      exact .inl ⟨hlt, rejects_of_invalid fuel stdin hread hrest hload hinvalid⟩
    · rw [← hthreshold] at hle ⊢
      exact .inr ⟨hle, proceeds fuel stdin hread hrest hload hle⟩
  case program =>
    intro source cfg log hsource hne hcfg
    rw [← program_of_read hread hsource] at hne ⊢
    have hjob : job w f rest = .ok (.script (text "<expr>") f.program) := job_of_program hne
    obtain ⟨p, hplan, hpjob, hrun⟩ := exists_plan fuel stdin hread hrest hload hcfg hjob
    rw [Plan.perform, hpjob] at hrun
    exact ⟨p, hplan, hpjob, hrun⟩
  case level =>
    intro level hlevel hne
    have hoverride : (override f c).level = level := by
      rw [override, level_of_read hread hlevel]
      exact if_neg (by simpa using hne)
    constructor
    · intro cfg log hcfg
      rw [(eq_override hload hcfg).1, hoverride]
    · intro hnone
      cases hinvalid : (override f c).invalid? with
      | none =>
        have hsome := (Config.invalid?_eq_none hinvalid).2
        rw [hoverride, hnone] at hsome
        cases hsome
      | some reason =>
        have hrejects := rejects_of_invalid fuel stdin hread hrest hload hinvalid
        rcases Config.invalid?_eq_some hinvalid with ⟨hlt, rfl⟩ | ⟨-, rfl, -⟩
        · exact .inr ⟨_, hlt, hrejects⟩
        · exact .inl hrejects
  case zero =>
    intro value hvalue hzero
    have hthreshold : (override f c).threshold = c.threshold := by
      rw [override, threshold_of_read hread hvalue hzero]
      rfl
    have hle := (Config.invalid?_eq_none (invalid?_of_loads hload)).1
    refine ⟨hle, ?_⟩
    rw [← hthreshold] at hle ⊢
    exact proceeds fuel stdin hread hrest hload hle
  case noProgram =>
    intro cfg log hsource hempty hcfg
    have hjob : job w f rest = .ok .interactive :=
      hempty ▸ job_of_no_program (program_of_read hread hsource)
    obtain ⟨p, hplan, hpjob, hrun⟩ := exists_plan fuel stdin hread hrest hload hcfg hjob
    rw [Plan.perform, hpjob] at hrun
    exact ⟨p, hplan, hpjob, hrun⟩
  case noLevel =>
    intro cfg log hlevel hcfg
    rw [(eq_override hload hcfg).1, override, level_of_read hread hlevel]
    rfl

end Accepted

end Overrides

def bare : Surroundings := ⟨text "/", fun _ => .error .missing⟩

def repeated : List Bytes :=
  ["-gc-threshold", "2", "--gc-threshold=7", "-e", "1"].map text

theorem run_overrides_repeated :
    Flags.none.read repeated = .ok (⟨[], 7, [], false, text "1"⟩, []) ∧
    (baseConfig bare ⟨[], 7, [], false, text "1"⟩ (.start .info) fun _ => []).1 = .ok .standard ∧
    Flags.value? .threshold repeated = some (text "7") ∧
    Proceeds bare repeated [] ⟨[], 7, [], false, text "1"⟩ .standard 10 [] (fun _ => []) 7 := by
  have hread : Flags.none.read repeated = .ok (⟨[], 7, [], false, text "1"⟩, []) := by
    decide +kernel
  have hvalue : Flags.value? .threshold repeated = some (text "7") := by decide +kernel
  have hload : (baseConfig bare ⟨[], 7, [], false, text "1"⟩ (.start .info) fun _ => []).1 =
      .ok .standard :=
    rfl
  have hseven : Integer.read (text "7") = .ok 7 := by decide +kernel
  have hoverrides := run_overrides hread (Nat.zero_le 1) hload 10 []
  rcases hoverrides.threshold hvalue hseven (by decide) with ⟨hlt, -⟩ | ⟨-, hproceeds⟩
  · exact absurd hlt (by decide)
  · exact ⟨hread, hload, hvalue, hproceeds⟩

def zeroed : List Bytes :=
  ["-gc-threshold", "0", "-e", "1"].map text

/-- A run with the threshold zero does not fail, and its session has the standard one. -/
theorem not_rejected_zeroed :
    Flags.none.read zeroed = .ok (⟨[], 0, [], false, text "1"⟩, []) ∧
    Flags.value? .threshold zeroed = some (text "0") ∧ Integer.read (text "0") = .ok 0 ∧
    (∃ p, plan bare zeroed = .ok p ∧ p.session.state.threshold = 100) ∧
    (run 10 bare [] zeroed).code = 0 := by
  have hread : Flags.none.read zeroed = .ok (⟨[], 0, [], false, text "1"⟩, []) := by
    decide +kernel
  refine ⟨hread, by decide +kernel, by decide +kernel, ?_, ?_⟩
  · rw [plan, hread]
    exact ⟨_, rfl, rfl⟩
  · decide +kernel

end CommandLine

end CornScript
