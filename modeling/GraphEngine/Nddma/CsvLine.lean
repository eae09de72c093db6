import Mathlib.Data.List.Basic

/-! The lines of a plan: the scripts write them with the `csv` module in its minimal quoting mode, the harness takes them
apart with `SplitCsvLine`. -/
namespace GraphEngine.Nddma.Plan

open List

abbrev Text := List Char

def quote : Char := '\x22'

/-- The loop of `SplitCsvLine`: the rest of the line, `in_quotes`, the finished fields and the current one. -/
def splitLoop : Text → Bool → List Text → Text → List Text
  | [],_,fields,field => fields ++ [field]
  | ch :: rest,true,fields,field =>
    if ch = quote then
      match rest with
      | [] => splitLoop [] false fields field
      | next :: behind =>
        if next = quote then splitLoop behind true fields (field ++ [quote]) else splitLoop (next :: behind) false fields field
    else splitLoop rest true fields (field ++ [ch])
  | ch :: rest,false,fields,field =>
    if ch = quote then splitLoop rest true fields field
    else if ch = ',' then splitLoop rest false (fields ++ [field]) []
    else splitLoop rest false fields (field ++ [ch])

def splitCsvLine (line : Text) : List Text := splitLoop line false [] []

def needsQuotes (field : Text) : Bool := field.any fun ch => ch = ',' ∨ ch = quote ∨ ch = '\n' ∨ ch = '\r'

def doubled : Text → Text
  | [] => []
  | ch :: field => if ch = quote then quote :: quote :: doubled field else ch :: doubled field

def writeField (field : Text) : Text := if needsQuotes field then quote :: (doubled field ++ [quote]) else field

def joinFields : List Text → Text
  | [] => []
  | [field] => writeField field
  | field :: next :: fields => writeField field ++ ',' :: joinFields (next :: fields)

/-- The row without its line end; a lone empty field is quoted, so that the line is not empty. -/
def writeRow (fields : List Text) : Text := if fields = [[]] then [quote,quote] else joinFields fields

theorem splitLoop_inside {ch : Char} (other : ch ≠ quote) (rest : Text) (fields : List Text) (field : Text) :
    splitLoop (ch :: rest) true fields field = splitLoop rest true fields (field ++ [ch]) := by
  cases rest <;> simp [splitLoop,other]

theorem splitLoop_doubled {rest : Text} (ends : rest.head? ≠ some quote) (fields : List Text) (field done : Text) :
    splitLoop (doubled field ++ quote :: rest) true fields done = splitLoop rest false fields (done ++ field) := by
  induction field generalizing done with
  | nil =>
    cases rest with
    | nil => simp [doubled,splitLoop]
    | cons next behind =>
      have other : next ≠ quote := by simpa using ends
      simp [doubled,splitLoop,other]
  | cons ch field ih =>
    rw [doubled]
    split
    · rename_i same
      simp [splitLoop,ih,same]
    · rename_i other
      rw [cons_append,splitLoop_inside other,ih,append_assoc,singleton_append]

theorem splitLoop_plain {field : Text} (plain : needsQuotes field = false) (rest : Text) (fields : List Text) (done : Text) :
    splitLoop (field ++ rest) false fields done = splitLoop rest false fields (done ++ field) := by
  induction field generalizing done with
  | nil => simp
  | cons ch field ih =>
    simp only [needsQuotes,any_cons,Bool.or_eq_false_iff] at plain ih
    have other : ch ≠ quote ∧ ch ≠ ',' := by
      refine ⟨?_,?_⟩ <;> intro same <;> simp [same] at plain
    simp [splitLoop,other,ih plain.2]

theorem splitLoop_writeField {rest : Text} (ends : rest.head? ≠ some quote) (fields : List Text) (field : Text) :
    splitLoop (writeField field ++ rest) false fields [] = splitLoop rest false fields field := by
  rw [writeField]
  split
  · rw [cons_append,splitLoop,if_pos rfl,append_assoc,singleton_append,splitLoop_doubled ends,nil_append]
  · rename_i plain
    rw [splitLoop_plain (by simpa using plain),nil_append]

theorem splitLoop_joinFields {row : List Text} (filled : row ≠ []) (fields : List Text) :
    splitLoop (joinFields row) false fields [] = fields ++ row := by
  induction row generalizing fields with
  | nil => exact absurd rfl filled
  | cons field row ih =>
    cases row with
    | nil =>
      rw [joinFields,← append_nil (writeField field),splitLoop_writeField (by simp),splitLoop]
    | cons next row =>
      rw [joinFields,splitLoop_writeField (by simp [quote]),splitLoop,if_neg (by decide),if_pos rfl,
        ih (cons_ne_nil _ _),append_assoc,singleton_append]

/-- A row that was written is read back, whatever its fields hold. -/
theorem splitCsvLine_writeRow (fields : List Text) (filled : fields ≠ []) : splitCsvLine (writeRow fields) = fields := by
  rw [splitCsvLine,writeRow]
  split
  · rename_i empty
    rw [empty]
    rfl
  · exact splitLoop_joinFields filled []

theorem splitCsvLine_writeRow_quoted : splitCsvLine (writeRow [['a',','],[],[quote,quote]]) = [['a',','],[],[quote,quote]] :=
  splitCsvLine_writeRow _ (cons_ne_nil _ _)

/-- A row without fields is an empty line, which has one field. -/
theorem splitCsvLine_writeRow_nil : splitCsvLine (writeRow []) = [[]] ∧ splitCsvLine (writeRow []) ≠ [] :=
  ⟨rfl,cons_ne_nil _ _⟩

end GraphEngine.Nddma.Plan
