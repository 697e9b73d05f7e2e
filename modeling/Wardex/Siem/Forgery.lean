import Wardex.Siem.Cef
import Wardex.Siem.Syslog

/-! When an export is read back: one line for every alert, with what the alert says. -/

namespace Wardex.Siem

open Wardex.Lib

inductive LogFormat where
  | cef
  | leef
  | syslog
deriving DecidableEq

namespace LogFormat

def name : LogFormat → String
  | .cef => "cef"
  | .leef => "leef"
  | .syslog => "syslog"

def line : LogFormat → AlertRecord → String
  | .cef => cefLine
  | .leef => leefLine
  | .syslog => syslogLine

def read : LogFormat → String → Option LogEntry
  | .cef => readCef
  | .leef => readLeef
  | .syslog => readSyslog

/-- The keys of the fields that a line of the format has. -/
def keys : LogFormat → List String
  | .cef => cefKeys
  | .leef => leefKeys
  | .syslog => syslogKeys

/-- The texts of the alert that a line of the format contains. -/
def texts : LogFormat → AlertRecord → List String
  | .cef, a => [a.action, a.hostname, a.joinedReasons, a.mitreStr]
  | .leef, a => [a.timestamp, a.hostname, a.level, a.action, a.joinedReasons, a.mitreStr]
  | .syslog, a => [a.timestamp, a.hostname, a.action, a.level, a.mitreStr, a.joinedReasons]

/-- No text of the line has an end of line. -/
def OneLine (format : LogFormat) (a : AlertRecord) : Prop := ∀ s ∈ format.texts a, Free ['\n'] s

/-- The texts have none of the separators of the format. -/
def Separable : LogFormat → AlertRecord → Prop
  | .cef => CefClean
  | .leef => LeefClean
  | .syslog => SyslogClean

end LogFormat

/-- What should be read from the line of the alert. -/
def AlertRecord.entry (a : AlertRecord) (format : LogFormat) : LogEntry :=
  ⟨a.hostname, a.action, a.joinedReasons, format.keys⟩

theorem read_line (format : LogFormat) (a : AlertRecord) :
    format.read (format.line a) = some (a.entry format) ↔ format.Separable a := by
  cases format with
  | cef => exact readCef_cefLine a
  | leef => exact readLeef_leefLine a
  | syslog => exact readSyslog_syslogLine a

/-! ### Lines -/

theorem newline_notMem_line (format : LogFormat) (a : AlertRecord) :
    '\n' ∉ (format.line a).toList ↔ format.OneLine a := by
  have hscore : '\n' ∉ a.score.text.toList := notMem_text a.score (by decide)
  have hconfidence : '\n' ∉ a.confidence.text.toList := notMem_text a.confidence (by decide)
  have hseverity : '\n' ∉ (cefSeverity a.level).toList := by
    unfold cefSeverity
    split_ifs <;> decide
  have hpri : '\n' ∉ Nat.toDigits 10 (syslogPri a.level) := by
    unfold syslogPri
    split_ifs <;> decide
  simp only [LogFormat.OneLine, Free, List.forall_mem_singleton]
  cases format with
  | cef =>
    show '\n' ∉ (cefLine a).toList ↔ _
    unfold cefLine
    simp [LogFormat.texts, hscore, hseverity]
  | leef =>
    show '\n' ∉ (leefLine a).toList ↔ _
    unfold leefLine
    simp [LogFormat.texts, hscore]
  | syslog =>
    show '\n' ∉ (syslogLine a).toList ↔ _
    unfold syslogLine
    simp [LogFormat.texts, hscore, hconfidence, hpri]

theorem exportAlerts_eq (json : List AlertRecord → String → String) (alerts : List AlertRecord)
    (format : LogFormat) :
    exportAlerts json alerts format.name = "\n".intercalate (alerts.map format.line) := by
  cases format with
  | cef => rfl
  | leef => rfl
  | syslog => rfl

theorem line_ne_nil (format : LogFormat) (a : AlertRecord) : (format.line a).toList ≠ [] := by
  cases format with
  | cef =>
    show (cefLine a).toList ≠ []
    unfold cefLine
    simp
  | leef =>
    show (leefLine a).toList ≠ []
    unfold leefLine
    simp
  | syslog =>
    show (syslogLine a).toList ≠ []
    unfold syslogLine
    simp

theorem logLines_intercalate {l : String} {ls : List String} (h : l.toList ≠ []) :
    logLines ("\n".intercalate (l :: ls)) =
      ((['\n'].intercalate ((l :: ls).map String.toList)).splitOn '\n').map String.ofList := by
  have hne : ("\n".intercalate (l :: ls)).toList ≠ [] := by
    rw [String.toList_intercalate, List.map_cons]
    cases ls with
    | nil => simpa using h
    | cons l' ls =>
      rw [List.map_cons, List.intercalate_cons_cons]
      simp [h]
  rw [logLines, if_neg hne, String.toList_intercalate]
  rfl

/-- There are as many lines as alerts if and only if every alert is one line. -/
theorem length_logLines (json : List AlertRecord → String → String) (alerts : List AlertRecord)
    (format : LogFormat) :
    (logLines (exportAlerts json alerts format.name)).length = alerts.length ↔
      ∀ a ∈ alerts, format.OneLine a := by
  rw [exportAlerts_eq]
  cases alerts with
  | nil => simp [logLines]
  | cons a alerts =>
    have hlength : (((a :: alerts).map format.line).map String.toList).length =
        (a :: alerts).length := by rw [List.length_map, List.length_map]
    rw [List.map_cons, logLines_intercalate (line_ne_nil format a), ← List.map_cons,
      List.length_map, ← hlength, length_splitOn_intercalate_iff (by simp)]
    simp only [List.forall_mem_map, newline_notMem_line]

/-- The lines of alerts that are one line each. -/
theorem logLines_export (json : List AlertRecord → String → String) {alerts : List AlertRecord}
    {format : LogFormat} (h : ∀ a ∈ alerts, format.OneLine a) :
    logLines (exportAlerts json alerts format.name) = alerts.map format.line := by
  rw [exportAlerts_eq]
  cases alerts with
  | nil => rfl
  | cons a alerts =>
    have hlines : ∀ p ∈ ((a :: alerts).map format.line).map String.toList, '\n' ∉ p := by
      simpa only [List.forall_mem_map, newline_notMem_line] using h
    rw [List.map_cons, logLines_intercalate (line_ne_nil format a), ← List.map_cons,
      List.splitOn_intercalate _ hlines (List.cons_ne_nil _ _), List.map_map]
    simp

/-- The lines of an export are those of its alerts, one line each with the alert's hostname, action
and reasons and no further field, if and only if every alert is one line and can be separated. -/
theorem readBack_iff (json : List AlertRecord → String → String) (alerts : List AlertRecord)
    (format : LogFormat) :
    List.Forall₂ (fun line a => format.read line = some (a.entry format))
        (logLines (exportAlerts json alerts format.name)) alerts ↔
      ∀ a ∈ alerts, format.OneLine a ∧ format.Separable a := by
  constructor
  · intro h
    have hlines := (length_logLines json alerts format).mp h.length_eq
    rw [logLines_export json hlines, List.forall₂_map_left_iff, List.forall₂_same] at h
    exact fun a ha => ⟨hlines a ha, (read_line format a).mp (h a ha)⟩
  · intro h
    rw [logLines_export json fun a ha => (h a ha).1, List.forall₂_map_left_iff, List.forall₂_same]
    exact fun a ha => (read_line format a).mpr (h a ha).2

/-- An alert whose reason names a file with an end of line in its name. -/
def twoLines : AlertRecord where
  timestamp := "2026-01-05T10:00:00Z"
  hostname := "edge-1"
  score := .finite false 910
  confidence := .finite false 90
  level := "critical"
  action := "isolate"
  reasons := ["/tmp/a\n<166>1 2026-01-05T10:00:01Z edge-1 Wardex - resolved [] all clear"]
  mitre := []

/-- One alert gives two lines of syslog. -/
theorem twoLines_not_readBack :
    ¬ List.Forall₂ (fun line a => LogFormat.syslog.read line = some (a.entry .syslog))
      (logLines (exportAlerts (fun _ _ => "[]") [twoLines] "syslog")) [twoLines] := by
  intro h
  have hlines := (length_logLines (fun _ _ => "[]") [twoLines] .syslog).mp h.length_eq
  have hreasons : '\n' ∉ twoLines.joinedReasons.toList :=
    hlines twoLines List.mem_cons_self twoLines.joinedReasons (by simp [LogFormat.texts]) '\n'
      List.mem_cons_self
  exact hreasons (by simp [AlertRecord.joinedReasons, twoLines])

end Wardex.Siem
