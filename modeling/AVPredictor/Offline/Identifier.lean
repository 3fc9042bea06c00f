import AVPredictor.Base.Scanf
import AVPredictor.Offline.GroupInv
import AVPredictor.Offline.Pruner

/-!
# AVPredictor.Offline.Identifier — `find_identifier`

A result whose three accesses lie in sections of one mutex becomes a line of type 1, with the call
sites of the sections' locks and unlocks; every other result becomes a line of type 0, with the
instructions and addresses of the accesses.  The line goes to `grouper` with the sections' or the
accesses' times.
-/

namespace AVPredictor
namespace Offline

open Base

/-- `str(n)` -/
def str (n : ℕ) : List Char := Nat.toDigits 10 n

/-- The numbers of a line: the type, and tid and two arguments for each of the three roles. -/
structure LineNumbers where
  type : ℕ
  firstId : ℕ
  firstArg1 : ℕ
  firstArg2 : ℕ
  secondId : ℕ
  secondArg1 : ℕ
  secondArg2 : ℕ
  interId : ℕ
  interArg1 : ℕ
  interArg2 : ℕ
deriving DecidableEq, Repr

/-- `str(type)+"["+str(tid)+"]"+str(arg1)+","+str(arg2)+"; ["+...+"\n"`, the same in all three
branches. -/
def LineNumbers.msgStr (l : LineNumbers) : List Char :=
  str l.type ++ '[' :: (str l.firstId ++ ']' :: (str l.firstArg1 ++ ',' :: (str l.firstArg2 ++ ';' :: ' ' ::
    '[' :: (str l.secondId ++ ']' :: (str l.secondArg1 ++ ',' :: (str l.secondArg2 ++ ';' :: ' ' ::
    '[' :: (str l.interId ++ ']' :: (str l.interArg1 ++ ',' :: (str l.interArg2 ++ ['\n'])))))))))

/-- The line of a result at the level of its sections. -/
def lockNumbers (firstCs secondCs interCs : CS) : LineNumbers :=
  { type := 1
    firstId := firstCs.tid, firstArg1 := firstCs.lCv, firstArg2 := firstCs.uCv
    secondId := secondCs.tid, secondArg1 := secondCs.lCv, secondArg2 := secondCs.uCv
    interId := interCs.tid, interArg1 := interCs.lCv, interArg2 := interCs.uCv }

/-- The line of a result at the level of its accesses. -/
def accessNumbers (re : Result) : LineNumbers :=
  { type := 0
    firstId := re.first.tid, firstArg1 := re.first.ip, firstArg2 := re.first.addr
    secondId := re.second.tid, secondArg1 := re.second.ip, secondArg2 := re.second.addr
    interId := re.inter.tid, interArg1 := re.inter.ip, interArg2 := re.inter.addr }

/-- The arguments of the `grouper` call for a result at the level of its accesses. -/
def accessEntry (re : Result) : Entry :=
  { firstInterval := (re.first.time, re.first.time)
    secondInterval := (re.second.time, re.second.time)
    interInterval := (re.inter.time, re.inter.time)
    msg := (accessNumbers re).msgStr }

/-- The three sections that a result is identified by, if it has three of one mutex. -/
def commonSections (re : Result) : Option (CS × CS × CS) :=
  match re.firstCs, re.secondCs, re.interCs with
  | some firstCs, some secondCs, some interCs =>
    if firstCs.lEv = secondCs.lEv ∧ firstCs.lEv = interCs.lEv then some (firstCs, secondCs, interCs) else none
  | _, _, _ => none

/-- The numbers printed for a result. -/
def identifier (re : Result) : LineNumbers :=
  match commonSections re with
  | some (firstCs, secondCs, interCs) => lockNumbers firstCs secondCs interCs
  | none => accessNumbers re

/-- The arguments of the `grouper` call for a result. -/
def identifierEntry (re : Result) : Entry :=
  match commonSections re with
  | some (firstCs, secondCs, interCs) =>
    { firstInterval := (firstCs.stime, firstCs.ftime)
      secondInterval := (secondCs.stime, secondCs.ftime)
      interInterval := (interCs.stime, interCs.ftime)
      msg := (lockNumbers firstCs secondCs interCs).msgStr }
  | none => accessEntry re

/-- `find_identifier` -/
def findIdentifier (s : GroupState) (resultList : List Result) : Except PyErr GroupState :=
  resultList.foldlM (fun s re => s.call (identifierEntry re)) s

/-- Three sections of one mutex. -/
theorem commonSections_eq_some {re : Result} {f s i : CS} (h : commonSections re = some (f, s, i)) :
    re.firstCs = some f ∧ re.secondCs = some s ∧ re.interCs = some i ∧ f.lEv = s.lEv ∧ f.lEv = i.lEv := by
  unfold commonSections at h
  split at h
  · rename_i f' s' i' hf hs hi
    split_ifs at h with hm
    obtain ⟨rfl, rfl, rfl⟩ : f' = f ∧ s' = s ∧ i' = i := by simpa using h
    exact ⟨hf, hs, hi, hm⟩
  · exact nomatch h

/-- The message of a result is its printed line. -/
theorem msg_identifierEntry (re : Result) : (identifierEntry re).msg = (identifier re).msgStr := by
  unfold identifierEntry identifier
  cases commonSections re with
  | none => rfl
  | some c => rfl

theorem newline_not_mem_str (n : ℕ) : '\n' ∉ str n := by
  intro h
  have hdigit : '\n'.isDigit = true := Nat.isDigit_of_mem_toDigits (by decide) (by decide) h
  exact absurd hdigit (by decide)

/-- The tid and the two arguments of one role. -/
theorem isLine_role (id arg1 arg2 : ℕ) {l : List Char} (hl : IsLine l) :
    IsLine (str id ++ ']' :: (str arg1 ++ ',' :: (str arg2 ++ l))) := by
  have harg2 := hl.append (newline_not_mem_str arg2)
  have harg1 := (harg2.append (show '\n' ∉ [','] by decide)).append (newline_not_mem_str arg1)
  exact (harg1.append (show '\n' ∉ [']'] by decide)).append (newline_not_mem_str id)

/-- A message is one line. -/
theorem isLine_msgStr (l : LineNumbers) : IsLine l.msgStr := by
  have hinter := isLine_role l.interId l.interArg1 l.interArg2 isLine_newline
  have hsecond := isLine_role l.secondId l.secondArg1 l.secondArg2
    (hinter.append (show '\n' ∉ [';', ' ', '['] by decide))
  have hfirst := isLine_role l.firstId l.firstArg1 l.firstArg2
    (hsecond.append (show '\n' ∉ [';', ' ', '['] by decide))
  exact (hfirst.append (show '\n' ∉ ['['] by decide)).append (newline_not_mem_str l.type)

end Offline
end AVPredictor
