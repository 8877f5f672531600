import Jpql.Problem.Basic
import Jpql.Text.Slice

/-! # Reports

A report is a problem prepared for showing it over a query text: the wording, the code, and a label
at a place that lies inside the text. `SourceFile.report_label_bounds` says that the label never
leaves the text, whatever the span of the problem. -/

namespace Jpql

/-- A query text under an optional display name. -/
structure SourceFile where
  content : String
  name : Option String

/-- A marked place in a query text. -/
structure Label where
  text : String
  offset : Nat
  length : Nat

/-- A problem prepared for showing. Every problem is an error. -/
structure Report where
  message : String
  code : String
  label : Label

namespace SourceFile

/-- The length of the text in bytes. -/
def length (source : SourceFile) : Nat := Text.byteLength source.content.toList

/-- A span cut to the text. -/
def clamp (source : SourceFile) (span : Span) : Span := span.clamp source.length

/-- **The report of one problem.** Its label carries the name of the category. -/
def report (source : SourceFile) (problem : Problem) : Report :=
  let span := source.clamp problem.span
  { message := problem.message
    code := problem.key.messageKey
    label := ⟨problem.category.name, span.start, span.stop - span.start⟩ }

/-- The label of a report lies inside the text. -/
theorem report_label_bounds (source : SourceFile) (problem : Problem) :
    (source.report problem).label.offset + (source.report problem).label.length ≤
      source.length := by
  have h := Span.clamp_bounds source.length problem.span
  simp only [report, clamp]
  omega

end SourceFile

end Jpql
