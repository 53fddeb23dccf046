import Mathlib.Data.List.Basic
import Mathlib.Data.Nat.Notation

/-!
# Reading a text line by line

A `bufio.Scanner` returns the lines of a text without their ends, a carriage
return being part of the end. A line that does not fit into its buffer together
with its end stops it for good, and whoever does not ask for the error takes
that for the end of the text.
-/
namespace Sozvon.LineScanner

abbrev Bytes := List UInt8

/-- `bufio.MaxScanTokenSize` -/
def maxTokenSize : ℕ := 64 * 1024

def newline : UInt8 := 10
def carriageReturn : UInt8 := 13

def crlf : Bytes := [carriageReturn, newline]

def dropCR (l : Bytes) : Bytes :=
  if l.getLast? = some carriageReturn then l.dropLast else l

/-- The lines returned, given the pieces between newlines. The last piece has no newline, and is
no line if it is empty. -/
def tokens : List Bytes → List Bytes
  | [] => []
  | [last] => if last = [] ∨ maxTokenSize ≤ last.length then [] else [dropCR last]
  | l :: ls => if maxTokenSize < l.length + 1 then [] else dropCR l :: tokens ls

def scan (text : Bytes) : List Bytes := tokens (text.splitOn newline)

/-- Lines as they are written, each with its end. -/
def render (ls : List Bytes) : Bytes := ls.flatMap fun l => l ++ crlf

/-- A line that can be read back. -/
def Fits (l : Bytes) : Prop := l.length + crlf.length ≤ maxTokenSize

instance : DecidablePred Fits := fun _ => inferInstanceAs (Decidable (_ ≤ _))

theorem dropCR_append (l : Bytes) : dropCR (l ++ [carriageReturn]) = l := by
  rw [dropCR, List.getLast?_concat, if_pos rfl, List.dropLast_concat]

theorem scan_nil : scan [] = [] := rfl

theorem scan_line {l : Bytes} (h : newline ∉ l) (rest : Bytes) :
    scan (l ++ crlf ++ rest) = if Fits l then l :: scan rest else [] := by
  have hpiece : newline ∉ l ++ [carriageReturn] := by
    rw [List.mem_append, List.mem_singleton, not_or]
    exact ⟨h, by decide⟩
  have hsplit : (l ++ crlf ++ rest).splitOn newline =
      (l ++ [carriageReturn]) :: rest.splitOn newline := by
    rw [← List.splitOn_append_cons_self_of_not_mem hpiece, crlf, List.append_assoc,
      List.append_assoc]
    rfl
  obtain ⟨p, ps, hrest⟩ := List.exists_cons_of_ne_nil (List.splitOn_ne_nil newline rest)
  have hlength : (l ++ [carriageReturn]).length + 1 = l.length + crlf.length := by
    rw [List.length_append]
    rfl
  rw [scan, hsplit, scan, hrest, tokens, dropCR_append, hlength]
  · by_cases hfits : Fits l
    · rw [if_pos hfits, if_neg (Nat.not_lt.mpr hfits)]
    · rw [if_neg hfits, if_pos (Nat.not_le.mp hfits)]
  · exact List.cons_ne_nil p ps

/-- What is read back of lines as they are written: those before one that does not fit. -/
theorem scan_render {ls : List Bytes} (h : ∀ l ∈ ls, newline ∉ l) :
    scan (render ls) = ls.takeWhile fun l => Fits l := by
  induction ls with
  | nil => exact scan_nil
  | cons l ls ih =>
      have hrest := ih fun m hm => h m (List.mem_cons_of_mem l hm)
      rw [render, List.flatMap_cons, scan_line (h l List.mem_cons_self), List.takeWhile_cons]
      change (if Fits l then l :: scan (render ls) else []) = _
      rw [hrest]
      by_cases hfits : Fits l
      · rw [if_pos hfits, decide_eq_true hfits]
        rfl
      · rw [if_neg hfits, decide_eq_false hfits]
        rfl

end Sozvon.LineScanner
