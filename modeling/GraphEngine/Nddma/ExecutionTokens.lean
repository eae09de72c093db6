import Mathlib.Data.List.Nodup
import GraphEngine.Nddma.CsvLine
import GraphEngine.Nddma.Harness

/-! The names of executions: the harness logs each under the token of its plan row and a number, and the analysis finds the
row back from the log and pairs the samples of the profiler with it by position. -/
namespace GraphEngine.Nddma.Plan

open List

open Harness (twoPow32 twoPow64)

def execMark : Text := ['_','e','x','e','c']

/-- The classes `\d` and `\s` of a regular expression, as far as the two patterns depend on them. -/
structure CharClasses where
  isDigit : Char → Bool
  isSpace : Char → Bool
  digit : ∀ c : Char, c.isDigit → isDigit c
  separators : ∀ c ∈ ['_','/',']'],isDigit c = false
  blank : isSpace ' '
  newline : isSpace '\n'
  printed : ∀ c : Char, c.isDigit ∨ c ∈ execMark → isSpace c = false

abbrev Dict := String → Option Text

def Dict.update (dict other : Dict) : Dict := fun key => (other key).or (dict key)

def Dict.set (dict : Dict) (key : String) (value : Text) : Dict := fun other => if other = key then some value else dict other

structure FactorRow where
  token : Text
  executionRepeatCount : Nat
  columns : Dict
  named : columns "token" = some token

abbrev Execution := FactorRow × Nat

def decimal (n : Nat) : Text := Nat.toDigits 10 n

section Harness

def executionRepeatCount (row : FactorRow) : Nat := max 1 row.executionRepeatCount

/-- The executions that `main` starts, in order; the counter of a row has 32 bits, and a failure may end the run after
any number of them. -/
def executionsFrom : Nat → List FactorRow → Nat → List Execution
  | 0,_,_ => []
  | _ + 1,[],_ => []
  | steps + 1,row :: rest,k =>
    let next := (k + 1) % twoPow32
    (row,k) :: if next ≤ executionRepeatCount row then executionsFrom steps (row :: rest) next else executionsFrom steps rest 1

def executions (plan : List FactorRow) (started : Nat) : List Execution := executionsFrom started plan 1

def totalExecutionCount (plan : List FactorRow) : Nat := (plan.map executionRepeatCount).sum % twoPow64

def executionToken (execution : Execution) : Text := execution.1.token ++ execMark ++ decimal execution.2

def logLine (order total : Nat) (token : Text) : Text :=
  '[' :: (decimal order ++ '/' :: (decimal total ++ ']' :: ' ' :: (token ++ ['\n'])))

def executionOrder (i : Nat) : Nat := (i + 1) % twoPow64

def experimentLog (plan : List FactorRow) (started : Nat) : List Text :=
  (executions plan started).mapIdx fun i execution => logLine (executionOrder i) (totalExecutionCount plan)
    (executionToken execution)

end Harness

section Analysis
variable (classes : CharClasses)

/-- `_exec(\d+)$` at the first character. -/
def matchExec (text : Text) : Option Text :=
  let digits := text.drop execMark.length
  if text.take execMark.length = execMark ∧ digits ≠ [] ∧ digits.all classes.isDigit then some digits else none

def searchExec : Text → Option (Text × Text)
  | [] => none
  | c :: rest =>
    match matchExec classes (c :: rest) with
    | some digits => some ([],digits)
    | none => (searchExec rest).map fun found => (c :: found.1,found.2)

def baseFactorToken (token : Text) : Text :=
  match searchExec classes token with
  | some (before,_) => before
  | none => token

structure ExperimentRow where
  experimentOrder : Text
  experimentTotal : Text
  token : Text
  executionRepeatIndex : Text
  deriving DecidableEq, Repr

def ExperimentRow.columns (row : ExperimentRow) : Dict := fun key =>
  if key = "experiment_order" then some row.experimentOrder
  else if key = "experiment_total" then some row.experimentTotal
  else if key = "token" then some row.token
  else if key = "execution_repeat_index" then some row.executionRepeatIndex
  else none

/-- `\[(\d+)/(\d+)\]\s+(\S+)` at the first character. No separator is a digit and no blank a non-blank, so only the longest
runs match. -/
def matchLine : Text → Option (Text × Text × Text)
  | '[' :: rest =>
    match rest.dropWhile classes.isDigit with
    | '/' :: behind =>
      match behind.dropWhile classes.isDigit with
      | ']' :: tail =>
        let order := rest.takeWhile classes.isDigit
        let total := behind.takeWhile classes.isDigit
        let token := (tail.dropWhile classes.isSpace).takeWhile fun c => !classes.isSpace c
        if order ≠ [] ∧ total ≠ [] ∧ tail.takeWhile classes.isSpace ≠ [] ∧ token ≠ [] then some (order,total,token) else none
      | _ => none
    | _ => none
  | _ => none

def searchLine : Text → Option (Text × Text × Text)
  | [] => none
  | c :: rest => (matchLine classes (c :: rest)).or (searchLine rest)

def parseExperimentLog (lines : List Text) : List ExperimentRow :=
  lines.filterMap fun line => (searchLine classes line).map fun (order,total,token) =>
    ⟨order,total,token,((searchExec classes token).map Prod.snd).getD []⟩

/-- `read_factor_rows` keeps the last row of a token. -/
def readFactorRow (plan : List FactorRow) (token : Text) : Option FactorRow := plan.reverse.find? (·.token = token)

def lookupFactorRow (plan : List FactorRow) (token : Text) : Option FactorRow :=
  match readFactorRow plan token with
  | some row => some row
  | none => readFactorRow plan (baseFactorToken classes token)

/-- One row of `match_with_params`, before the metrics of the pipes are added. -/
def mergeRow (index : Nat) (factor : Dict) (experiment : ExperimentRow) (sample : Dict) : Dict :=
  let merged := factor.update experiment.columns
  let merged := if experiment.executionRepeatIndex ≠ [] then
    merged.set "execution_repeat_index" experiment.executionRepeatIndex else merged
  let embedded : Dict := fun key => if (factor key).isSome then (sample key).filter (· ≠ []) else none
  (((merged.update embedded).update sample).set "profiling_match_index" (decimal (index + 1))).set
    "profiling_match_strategy" "positional_after_task_start_time_sort".toList

def matchWithParams (samples : List Dict) (experiments : List ExperimentRow) (plan : List FactorRow) : List Dict :=
  (samples.zip experiments).mapIdx fun index (sample,experiment) =>
    mergeRow index (((lookupFactorRow classes plan experiment.token).map FactorRow.columns).getD fun _ => none) experiment sample

end Analysis

def experimentRow (plan : List FactorRow) (i : Nat) (execution : Execution) : ExperimentRow :=
  ⟨decimal (executionOrder i),decimal (totalExecutionCount plan),executionToken execution,decimal execution.2⟩

/-- Every logged token leads to its own row, and the samples go to the executions in order. -/
structure Identified (classes : CharClasses) (plan : List FactorRow) (started : Nat) : Prop where
  resolved : ∀ execution ∈ executions plan started,
    lookupFactorRow classes plan (executionToken execution) = some execution.1
  matched : ∀ samples, matchWithParams classes samples (parseExperimentLog classes (experimentLog plan started)) plan =
    (samples.zip (executions plan started)).mapIdx fun index (sample,execution) =>
      mergeRow index execution.1.columns (experimentRow plan index execution) sample

structure Tokens (classes : CharClasses) (plan : List FactorRow) : Prop where
  distinct : (plan.map FactorRow.token).Nodup
  solid : ∀ row ∈ plan, ∀ c ∈ row.token, classes.isSpace c = false

theorem row_mem_of_execution {plan : List FactorRow} {started k : Nat} {execution : Execution}
    (there : execution ∈ executionsFrom started plan k) : execution.1 ∈ plan := by
  induction started generalizing plan k with
  | zero => simp [executionsFrom] at there
  | succ started ih =>
    cases plan with
    | nil => simp [executionsFrom] at there
    | cons row rest =>
      rw [executionsFrom] at there
      rcases mem_cons.mp there with rfl | there
      · exact mem_cons_self
      · split at there
        · exact ih there
        · exact mem_cons_of_mem _ (ih there)

theorem isDigit_decimal {n : Nat} {c : Char} (there : c ∈ decimal n) : c.isDigit :=
  Nat.isDigit_of_mem_toDigits (by decide) (by decide) there

theorem decimal_ne_nil (n : Nat) : decimal n ≠ [] := Nat.toDigits_ne_nil

section Resolve
variable {classes : CharClasses} {digits : Text} {plan : List FactorRow} {token : Text} {row : FactorRow}

theorem matchExec_early (c : Char) (before digits : Text) :
    matchExec classes (c :: (before ++ execMark ++ digits)) = none := by
  rw [matchExec,if_neg]
  intro ⟨mark,_,all⟩
  match before with
  | [] => simp [execMark] at mark
  | [_] => simp [execMark] at mark
  | [_,_] => simp [execMark] at mark
  | [_,_,_] => simp [execMark] at mark
  | _ :: _ :: _ :: _ :: before =>
    have digit := all_eq_true.mp all '_' (by simp [execMark])
    rw [classes.separators _ (by simp)] at digit
    exact absurd digit (by decide)

theorem searchExec_token (filled : digits ≠ []) (all : ∀ c ∈ digits, classes.isDigit c) (token : Text) :
    searchExec classes (token ++ execMark ++ digits) = some (token,digits) := by
  induction token with
  | nil =>
    rw [nil_append]
    have here : matchExec classes (execMark ++ digits) = some digits := by
      rw [matchExec,take_left,drop_left,if_pos ⟨rfl,filled,all_eq_true.mpr all⟩]
    rw [execMark,cons_append] at here ⊢
    rw [searchExec,here]
  | cons c token ih =>
    rw [cons_append,cons_append,searchExec,matchExec_early,ih]
    rfl

theorem searchExec_execution (execution : Execution) :
    searchExec classes (executionToken execution) = some (execution.1.token,decimal execution.2) :=
  searchExec_token (decimal_ne_nil _) (fun c there => classes.digit c (isDigit_decimal there)) _

theorem readFactorRow_some (found : readFactorRow plan token = some row) : row ∈ plan ∧ row.token = token :=
  ⟨mem_reverse.mp (mem_of_find?_eq_some found),by simpa using find?_some found⟩

theorem readFactorRow_none : readFactorRow plan token = none ↔ ∀ row ∈ plan, row.token ≠ token := by
  simp [readFactorRow]

variable (distinct : (plan.map FactorRow.token).Nodup)
include distinct

theorem readFactorRow_self (there : row ∈ plan) : readFactorRow plan row.token = some row := by
  cases found : readFactorRow plan row.token with
  | none => exact absurd rfl (readFactorRow_none.mp found row there)
  | some other =>
    obtain ⟨member,same⟩ := readFactorRow_some found
    rw [inj_on_of_nodup_map distinct member there same]

/-- The full token finds a row exactly if it is the token of one; otherwise the base token finds the row itself. -/
theorem lookupFactorRow_execution {execution : Execution}
    (there : execution.1 ∈ plan) : lookupFactorRow classes plan (executionToken execution) = some execution.1 ↔
      ∀ row ∈ plan, row.token ≠ executionToken execution := by
  rw [← readFactorRow_none,lookupFactorRow]
  cases found : readFactorRow plan (executionToken execution) with
  | none =>
    have base : baseFactorToken classes (executionToken execution) = execution.1.token := by
      rw [baseFactorToken,searchExec_execution]
    simp only [base,readFactorRow_self distinct there]
  | some row =>
    have longer : row ≠ execution.1 := by
      intro same
      have length := congrArg List.length (readFactorRow_some found).2
      rw [same] at length
      simp [executionToken,execMark] at length
    simp [longer]

end Resolve

section Log
variable {classes : CharClasses}

theorem takeWhile_decimal (classes : CharClasses) (n : Nat) {c : Char} (stop : classes.isDigit c = false) (rest : Text) :
    (decimal n ++ c :: rest).takeWhile classes.isDigit = decimal n ∧
      (decimal n ++ c :: rest).dropWhile classes.isDigit = c :: rest := by
  have all : ∀ d ∈ decimal n, classes.isDigit d := fun d there => classes.digit d (isDigit_decimal there)
  rw [takeWhile_append_of_pos all,dropWhile_append_of_pos all]
  simp [stop]

theorem searchLine_logLine (order total : Nat) {token : Text} (filled : token ≠ [])
    (solid : ∀ c ∈ token, classes.isSpace c = false) :
    searchLine classes (logLine order total token) = some (decimal order,decimal total,token) := by
  obtain ⟨orderDigits,afterOrder⟩ := takeWhile_decimal classes order (classes.separators '/' (by simp))
    (decimal total ++ ']' :: ' ' :: (token ++ ['\n']))
  obtain ⟨totalDigits,afterTotal⟩ := takeWhile_decimal classes total (classes.separators ']' (by simp))
    (' ' :: (token ++ ['\n']))
  have blank : (' ' :: (token ++ ['\n'])).takeWhile classes.isSpace ≠ [] := by simp [classes.blank]
  have text : ((' ' :: (token ++ ['\n'])).dropWhile classes.isSpace).takeWhile (fun c => !classes.isSpace c) = token := by
    obtain ⟨c,rest,rfl⟩ := exists_cons_of_ne_nil filled
    rw [dropWhile_cons,if_pos classes.blank,cons_append,dropWhile_cons,if_neg (by simp [solid c]),← cons_append,
      takeWhile_append_of_pos (by simpa using solid)]
    simp [classes.newline]
  rw [logLine,searchLine,matchLine,orderDigits,afterOrder]
  simp only [totalDigits,afterTotal,text]
  rw [if_pos ⟨decimal_ne_nil _,decimal_ne_nil _,blank,filled⟩]
  rfl

theorem filterMap_mapIdx {α β γ : Type} {f : β → Option γ} {g : Nat → α → β} {h : Nat → α → γ} {xs : List α}
    (all : ∀ x ∈ xs, ∀ i, f (g i x) = some (h i x)) : (xs.mapIdx g).filterMap f = xs.mapIdx h := by
  induction xs generalizing g h with
  | nil => rfl
  | cons x xs ih =>
    have rest := ih fun y there i => all y (mem_cons_of_mem x there) (i + 1)
    rw [mapIdx_cons,mapIdx_cons,filterMap_cons_some (all x mem_cons_self 0),rest]

theorem parseExperimentLog_experimentLog {plan : List FactorRow} (tokens : Tokens classes plan) (started : Nat) :
    parseExperimentLog classes (experimentLog plan started) = (executions plan started).mapIdx (experimentRow plan) := by
  apply filterMap_mapIdx
  intro execution there i
  have solid : ∀ c ∈ executionToken execution, classes.isSpace c = false := by
    intro c inside
    rcases mem_append.mp inside with inside | digit
    · rcases mem_append.mp inside with inside | mark
      · exact tokens.solid _ (row_mem_of_execution there) c inside
      · exact classes.printed c (Or.inr mark)
    · exact classes.printed c (Or.inl (isDigit_decimal digit))
  rw [searchLine_logLine _ _ (by simp [executionToken,execMark]) solid]
  simp [searchExec_execution,experimentRow]

end Log

/-- The log of an experiment leads every execution back to its row exactly if no token of a row is that of an execution. -/
theorem execution_tokens_iff (classes : CharClasses) (plan : List FactorRow) (started : Nat) (tokens : Tokens classes plan) :
    Identified classes plan started ↔
      ∀ execution ∈ executions plan started, ∀ row ∈ plan, row.token ≠ executionToken execution := by
  refine ⟨?_,?_⟩
  · intro identified execution there
    exact (lookupFactorRow_execution tokens.distinct (row_mem_of_execution there)).mp (identified.resolved execution there)
  · intro apart
    have resolved : ∀ execution ∈ executions plan started,
        lookupFactorRow classes plan (executionToken execution) = some execution.1 := by
      intro execution there
      exact (lookupFactorRow_execution tokens.distinct (row_mem_of_execution there)).mpr (apart execution there)
    refine ⟨resolved,?_⟩
    intro samples
    rw [parseExperimentLog_experimentLog tokens,matchWithParams]
    apply ext_getElem
    · simp
    · intro i left right
      have inside : i < (executions plan started).length := by simp at right; omega
      simp [experimentRow,resolved _ (getElem_mem inside)]

def asciiClasses : CharClasses where
  isDigit c := c.isDigit
  isSpace c := c = ' ' ∨ c = '\n'
  digit _ is := is
  separators := by simp
  blank := by decide
  newline := by decide
  printed c is := by
    rw [decide_eq_false_iff_not]
    intro blank
    rcases blank with rfl | rfl
    · exact absurd is (by decide)
    · exact absurd is (by decide)

def namedRow (token : Text) : FactorRow := ⟨token,1,fun _ => some token,rfl⟩

theorem execution_tokens_pair : Identified asciiClasses [namedRow ['a'],namedRow ['b']] 2 :=
  (execution_tokens_iff asciiClasses _ 2 ⟨by decide,by simp [namedRow,asciiClasses]⟩).mpr (by decide)

/-- A row whose token is that of an execution of another row takes its place. -/
theorem execution_token_collides :
    Tokens asciiClasses [namedRow ['a'],namedRow ['a','_','e','x','e','c','1']] ∧
      ¬Identified asciiClasses [namedRow ['a'],namedRow ['a','_','e','x','e','c','1']] 2 := by
  refine ⟨⟨by decide,by simp [namedRow,asciiClasses]⟩,?_⟩
  intro identified
  have found := congrArg (Option.map FactorRow.token) (identified.resolved (namedRow ['a'],1) mem_cons_self)
  exact absurd found (by decide)

end GraphEngine.Nddma.Plan
