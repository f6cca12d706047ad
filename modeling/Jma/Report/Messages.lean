import Jma.Core.Labels
import Jma.Lib.Fields
import Jma.Report.Shares
import Std.Data.String.ToInt

set_option autoImplicit false

/-! # The messages of a report

A roll sends the boot every block line by line: a header, the names of the columns, one line for
each row and a last line. The boot prints what it gets, in the colour of the level. Nothing but
these lines says where a block begins, how many rows it has and where a row's label begins, and
`messages_inj` says that this is enough. -/

namespace Jma

/-- `TransferMessage`; a field that the sender left out is `null`. -/
structure TransferMessage where
  level : Option String
  body : Option String
  deriving DecidableEq, Repr

namespace HttpTransUtil

/-- The message of `send(level, body)`. -/
def message (level body : String) : TransferMessage := ⟨some level, some body⟩

def sendInfo (body : String) : TransferMessage := message "info" body

def sendWarn (body : String) : TransferMessage := message "warn" body

def sendError (body : String) : TransferMessage := message "error" body

def sendSuccess (body : String) : TransferMessage := message "success" body

end HttpTransUtil

open HttpTransUtil

/-! ## The text of a block -/

/-- The line that opens a block. `Thread.currentThread()` is the thread that rolls. -/
def headerLine (current : String) (seq : BitVec 32) : String :=
  "=======" ++ current ++ "||seq:" ++ toString seq.toInt ++ "==========="

def columnsLine : String := "TC(ms)\tAC(ms)\tMIN(ms)\tMAX(ms)\tCOUNT\tINFO"

/-- The local `statistic`. -/
def statisticLine (info : StatisticInfo) (infoStr : String) : String :=
  toString info.totalCost ++ "\t" ++ toString info.avgCost ++ "\t" ++ toString info.minCost ++
    "\t" ++ toString info.maxCost ++ "\t" ++ toString (info.record.count : Int) ++ "\t" ++ infoStr

def endLine : String := "===========statistic end==============="

/-- The line of a row, sent as a warning or as information. -/
def rowMessage (allCost : Int) (info : StatisticInfo) (infoStr : String) : TransferMessage :=
  if isWarn info.totalCost allCost then sendWarn (statisticLine info infoStr)
  else sendInfo (statisticLine info infoStr)

/-- The rows of a chain with their labels. -/
def labelledRows (recordList : List TimeCostRecord) : List (StatisticInfo × String) :=
  (infos recordList).zip (reportLabels recordList)

/-- What `printAndRolling` sends for one block, in order. -/
def Block.messages (b : Block) : List TransferMessage :=
  sendInfo (headerLine b.headerName b.headerSeq) :: sendInfo columnsLine ::
    ((labelledRows b.recordList).map
        (fun row => rowMessage (allCost (infos b.recordList)) row.1 row.2) ++
      [sendInfo endLine])

/-! ## Reading the text back -/

/-- A number is written without separators. -/
theorem mem_toList_toString {n : Int} {c : Char} (h : c ∈ (toString n).toList) :
    c.isDigit = true ∨ c = '-' := by
  have hnat : ∀ k : Nat, c ∈ k.repr.toList → c.isDigit = true := by
    intro k hk
    rw [Nat.toList_repr] at hk
    exact Nat.isDigit_of_mem_toDigits (by decide) (by decide) hk
  rw [Int.toString_eq_repr, Int.repr_eq_if] at h
  split at h
  · exact Or.inl (hnat _ h)
  · rw [String.toList_append, List.mem_append] at h
    rcases h with h | h
    · exact Or.inr (List.mem_singleton.1 h)
    · exact Or.inl (hnat _ h)

theorem not_mem_toString (n : Int) {c : Char} (hdigit : c.isDigit = false) (hminus : c ≠ '-') :
    c ∉ (toString n).toList := by
  intro h
  rcases mem_toList_toString h with h | h
  · rw [hdigit] at h
    cases h
  · exact hminus h

theorem toString_inj {m n : Int} : toString m = toString n ↔ m = n := by
  rw [Int.toString_eq_repr, Int.toString_eq_repr, Int.repr_inj]

/-- A number ends at the first tabulator after it. -/
theorem number_append_inj {m n : Int} {s t : String} :
    toString m ++ ("\t" ++ s) = toString n ++ ("\t" ++ t) ↔ m = n ∧ s = t := by
  have htab : ∀ k : Int, '\t' ∉ (toString k).toList :=
    fun k => not_mem_toString k (by decide) (by decide)
  have hsplit : ∀ (k : Int) (u : String),
      (toString k ++ ("\t" ++ u)).toList = (toString k).toList ++ '\t' :: u.toList := by
    intro k u
    simp only [String.toList_append]
    rfl
  rw [← String.toList_inj, hsplit, hsplit, Fields.append_cons_inj_left (htab m) (htab n),
    String.toList_inj, String.toList_inj, toString_inj]

/-- What a row shows, with its level. -/
def rowView (allCost : Int) (row : StatisticInfo × String) :
    Bool × Int × Int × Int × Int × Nat × String :=
  (isWarn row.1.totalCost allCost, row.1.totalCost, row.1.avgCost, row.1.minCost, row.1.maxCost,
    row.1.record.count, row.2)

theorem statisticLine_inj {i j : StatisticInfo} {s t : String} :
    statisticLine i s = statisticLine j t ↔ i.totalCost = j.totalCost ∧ i.avgCost = j.avgCost ∧
      i.minCost = j.minCost ∧ i.maxCost = j.maxCost ∧ i.record.count = j.record.count ∧ s = t := by
  simp only [statisticLine, String.append_assoc, number_append_inj, Nat.cast_inj]

/-- The line of a row shows the row. -/
theorem rowMessage_inj {a b : Int} {row row' : StatisticInfo × String} :
    rowMessage a row.1 row.2 = rowMessage b row'.1 row'.2 ↔ rowView a row = rowView b row' := by
  have hlevel : ∀ s t : String, sendWarn s ≠ sendInfo t := fun s t h => by
    simp [sendWarn, sendInfo, message] at h
  have hbody : ∀ {level s t : String}, message level s = message level t ↔ s = t := by
    intro level s t
    simp [message]
  simp only [rowView, Prod.mk.injEq, rowMessage]
  cases isWarn row.1.totalCost a with
  | true =>
      cases isWarn row'.1.totalCost b with
      | true =>
          simp only [if_true, true_and]
          exact hbody.trans statisticLine_inj
      | false => simp [hlevel]
  | false =>
      cases isWarn row'.1.totalCost b with
      | true => simp [(hlevel _ _).symm]
      | false =>
          simp only [Bool.false_eq_true, if_false, true_and]
          exact hbody.trans statisticLine_inj

/-- The number in a header begins after its last colon, whatever the thread is called. -/
theorem headerLine_inj {current current' : String} {seq seq' : BitVec 32} :
    headerLine current seq = headerLine current' seq' ↔ current = current' ∧ seq = seq' := by
  have hcolon : ∀ k : Int, ':' ∉ (toString k).toList :=
    fun k => not_mem_toString k (by decide) (by decide)
  have hsplit : ∀ (s : String) (k : Int), (s ++ "||seq:" ++ toString k).toList
      = (s ++ "||seq").toList ++ ':' :: (toString k).toList := by
    intro s k
    simp only [String.toList_append, List.append_assoc]
    rfl
  have hline : ∀ (s : String) (k : BitVec 32), headerLine s k
      = "=======" ++ ((s ++ "||seq:" ++ toString k.toInt) ++ "===========") := by
    intro s k
    simp only [headerLine, String.append_assoc]
  rw [hline, hline, String.append_right_inj, String.append_left_inj, ← String.toList_inj, hsplit,
    hsplit, Fields.append_cons_inj_right (hcolon _) (hcolon _), String.toList_inj,
    String.append_left_inj, String.toList_inj, toString_inj, BitVec.toInt_inj]

/-- No row looks like the last line. -/
theorem rowMessage_ne_endLine (a : Int) (row : StatisticInfo × String) :
    rowMessage a row.1 row.2 ≠ sendInfo endLine := by
  have hline : statisticLine row.1 row.2 ≠ endLine := by
    intro h
    have hchars := congrArg String.toList h
    simp only [statisticLine, String.append_assoc, String.toList_append] at hchars
    cases hnumber : (toString row.1.totalCost).toList with
    | nil =>
        rw [hnumber] at hchars
        exact absurd (List.cons.inj hchars).1 (by decide)
    | cons c rest =>
        rw [hnumber] at hchars
        have hmem : '=' ∈ (toString row.1.totalCost).toList := by
          rw [hnumber, (List.cons.inj hchars).1]
          exact List.mem_cons_self ..
        exact not_mem_toString _ (by decide) (by decide) hmem
  intro h
  unfold rowMessage at h
  split at h
  · simp [sendWarn, sendInfo, message] at h
  · simp only [sendInfo, message, TransferMessage.mk.injEq, Option.some.injEq, true_and] at h
    exact hline h

/-- What a block shows. -/
def Block.view (b : Block) :
    String × BitVec 32 × List (Bool × Int × Int × Int × Int × Nat × String) :=
  (b.headerName, b.headerSeq,
    (labelledRows b.recordList).map (rowView (allCost (infos b.recordList))))

/-- A block at the beginning of the messages can be told from what follows. -/
theorem messages_append_inj {b b' : Block} {rest rest' : List TransferMessage} :
    b.messages ++ rest = b'.messages ++ rest' ↔ b.view = b'.view ∧ rest = rest' := by
  have hmessages : ∀ (c : Block) (more : List TransferMessage), c.messages ++ more
      = sendInfo (headerLine c.headerName c.headerSeq) :: sendInfo columnsLine ::
        ((labelledRows c.recordList).map
            (fun row => rowMessage (allCost (infos c.recordList)) row.1 row.2) ++
          sendInfo endLine :: more) := by
    intro c more
    simp [Block.messages]
  have hend : ∀ c : Block, sendInfo endLine ∉ (labelledRows c.recordList).map
      (fun row => rowMessage (allCost (infos c.recordList)) row.1 row.2) := by
    intro c h
    obtain ⟨row, -, hrow⟩ := List.mem_map.1 h
    exact rowMessage_ne_endLine _ _ hrow
  have hheader : sendInfo (headerLine b.headerName b.headerSeq)
      = sendInfo (headerLine b'.headerName b'.headerSeq) ↔
        b.headerName = b'.headerName ∧ b.headerSeq = b'.headerSeq := by
    rw [← headerLine_inj]
    simp [sendInfo, message]
  rw [hmessages, hmessages, List.cons.injEq, List.cons.injEq,
    Fields.append_cons_inj_left (hend b) (hend b'), hheader,
    Fields.map_eq_map_congr (fun _ _ => rowMessage_inj)]
  simp only [Block.view, Prod.mk.injEq, true_and, and_assoc]

/-- **The text of a report is unambiguous.** Two series of blocks are sent as the same messages
    exactly when they show the same: headed by the same names and numbers, the same rows in the same
    order, with the same values, labels and warnings. -/
theorem messages_inj (blocks blocks' : List Block) :
    blocks.flatMap Block.messages = blocks'.flatMap Block.messages ↔
      blocks.map Block.view = blocks'.map Block.view := by
  induction blocks generalizing blocks' with
  | nil =>
      cases blocks' with
      | nil => simp
      | cons b' rest' => simp [Block.messages]
  | cons b rest ih =>
      cases blocks' with
      | nil => simp [Block.messages]
      | cons b' rest' =>
          rw [List.flatMap_cons, List.flatMap_cons, messages_append_inj, ih, List.map_cons,
            List.map_cons, List.cons.injEq]

/-! ## What the boot prints -/

namespace PrintUtil

/-- `print`, with the text that picocli makes of its markup. -/
def print (ansi : String → String) (log : Option String) (fg : String) : String :=
  if fg = "" then log.getD "null"
  else ansi ("@|fg(" ++ fg ++ ") " ++ log.getD "null" ++ "|@")

def infoLine (ansi : String → String) (log : Option String) : String := print ansi log ""

def warnLine (ansi : String → String) (log : Option String) : String := print ansi log "yellow"

def errorLine (ansi : String → String) (log : Option String) : String := print ansi log "red"

def successLine (ansi : String → String) (log : Option String) : String := print ansi log "green"

end PrintUtil

namespace ClientMessageHandler

/-- `doAction` on a message that was read: the lines it prints, or `none` when it throws. A level
    without a case prints nothing. -/
def doAction (ansi : String → String) (message : TransferMessage) : Option (List String) :=
  message.level.map fun level =>
    match level.toLower with
    | "info" => [PrintUtil.infoLine ansi message.body]
    | "warn" => [PrintUtil.warnLine ansi message.body]
    | "error" => [PrintUtil.errorLine ansi message.body]
    | "success" => [PrintUtil.successLine ansi message.body]
    | _ => []

end ClientMessageHandler

end Jma
