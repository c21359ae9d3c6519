import AsymmetricCommittee.Features.Renderer
import AsymmetricCommittee.Lib.Backtracking

/-! The patterns of the scrubber as expressions of a backtracking matcher. -/

namespace AsymmetricCommittee
namespace Renderer
open Pat (cat oneOf)

section
variable (T : CharTables)

/-- `[1-9]` and its like. -/
def between (lo hi c : Char) : Bool := decide (lo ≤ c) && decide (c ≤ hi)

def digitPat : Pat := .cls r"\d" T.isDigit
def dotPat : Pat := .cls r"\." (· = '.')
/-- `\s?`. -/
def gapPat : Pat := .opt (.cls r"\s" T.isSpace)
/-- `\s+`. -/
def spacesPat : Pat := .many r"\s+" T.isSpace 1 none
def twoDigitsPat : Pat := .many "\\d\x7b2\x7d" T.isDigit 2 (some 2)

/-- `_NUM`. -/
def numberPat : Pat :=
  cat [digitPat T,
    .opt (.group (cat [.many r"[\d,]*" (fun c => T.isDigit c || c = ',') 0 none, digitPat T])),
    .opt (.group (cat [dotPat, .many r"\d+" T.isDigit 1 none]))]

/-- A name and how it may go on. -/
def monthName (start ending : String) : Pat := .seq (.lit start) (.opt (.group (.lit ending)))

/-- `_MONTH`. -/
def monthPat : Pat :=
  cat [.group (oneOf [monthName "jan" "uary", monthName "feb" "ruary", monthName "mar" "ch", monthName "apr" "il", .lit "may",
      .seq (.lit "jun") (.opt (.lit "e")), .seq (.lit "jul") (.opt (.lit "y")), monthName "aug" "ust",
      .seq (.lit "sep") (.opt (.group (monthName "t" "ember"))), monthName "oct" "ober", monthName "nov" "ember",
      monthName "dec" "ember"]),
    .edge, .opt dotPat]

/-- `_YEAR`. -/
def yearPat : Pat := .seq (.group (.alt (.lit "19") (.lit "20"))) (twoDigitsPat T)

/-- `_AMOUNT_RE`. -/
def amountPat : Pat :=
  cat [.group (.alt (.cls "[$\u20ac\u00a3\u00a5]" fun c => c = '$' || c = '\u20ac' || c = '\u00a3' || c = '\u00a5')
      (cat [.edge, .group (oneOf [.lit "USD", .lit "EUR", .lit "GBP"]), gapPat T])),
    numberPat T,
    .opt (.group (cat [gapPat T,
      .group (oneOf [.lit "thousand", .lit "million", .lit "billion", .lit "trillion", .lit "bn", .lit "mm",
        .cls "[kmbt]" fun c => T.same c 'k' || T.same c 'm' || T.same c 'b' || T.same c 't']),
      .edge]))]

/-- `_MAGNITUDE_RE`. -/
def magnitudePat : Pat :=
  cat [numberPat T, gapPat T,
    .group (oneOf [.lit "thousand", .lit "million", .lit "billion", .lit "trillion"]), .edge,
    .opt (.group (cat [spacesPat T, .capture (oneOf [.lit "shares", .lit "dollars", .lit "euros", .lit "usd"])]))]

/-- `_SHARES_RE`. -/
def sharesPat : Pat := cat [numberPat T, spacesPat T, .lit "shares", .edge]

/-- What stands between the parts of a date. -/
def dateSep : Pat := .cls "[-/.]" fun c => c = '-' || c = '/' || c = '.'

def monthNumberPat : Pat :=
  .group (.alt (.seq (.opt (.lit "0")) (.cls "[1-9]" (between '1' '9'))) (.seq (.lit "1") (.cls "[0-2]" (between '0' '2'))))

def dayPat : Pat :=
  .group (oneOf [.seq (.opt (.lit "0")) (.cls "[1-9]" (between '1' '9')), .seq (.cls "[12]" (between '1' '2')) (digitPat T),
    .seq (.lit "3") (.cls "[01]" (between '0' '1'))])

/-- `_DATE_RES`. -/
def datePats : List (Pat × Bool) :=
  [(cat [.edge, yearPat T, dateSep, monthNumberPat, dateSep, dayPat T, .edge], false),
    (cat [.edge, monthNumberPat, dateSep, dayPat T, dateSep, .group (.alt (yearPat T) (twoDigitsPat T)), .edge], false),
    (cat [.edge, monthPat, spacesPat T, .many "\\d\x7b1,2\x7d" T.isDigit 1 (some 2),
      .opt (.group (cat [.opt (.lit ","), spacesPat T, yearPat T])), .edge], true),
    (cat [.edge, monthPat, spacesPat T, yearPat T, .edge], true),
    (cat [.edge, .lit "Q", .cls "[1-4]" (between '1' '4'), gapPat T, yearPat T, .edge], true),
    (cat [.edge, .group (.alt (.lit "FY") (.seq (.lit "fiscal") (.opt (.group (.seq (spacesPat T) (.lit "year")))))), gapPat T,
      .group (.alt (yearPat T) (twoDigitsPat T)), .edge], true),
    (cat [.notBehind r"\d" T.isDigit, yearPat T, .notAhead r"\d" T.isDigit], false)]

/-- What a number may not follow. -/
def glued (c : Char) : Bool := T.isWord c || c = '.'

/-- `_LONG_NUMBER_RE`. -/
def longNumberPat : Pat := .seq (.notBehind r"[\w.]" (glued T)) (numberPat T)

/-- The patterns of the scrubber. -/
def scrubPats : List (Pat × Bool) :=
  [(amountPat T, true), (magnitudePat T, true), (sharesPat T, true)] ++ datePats T ++ [(longNumberPat T, false)]

/-- Tables without a character. -/
def noChars : CharTables := ⟨fun _ => false, fun _ => false, fun _ => false, fun _ _ => false⟩

/-- The expressions are written as the patterns. -/
theorem scrubPats_render : (scrubPats T).map (fun p => (p.1.render, p.2)) =
    [(amountPattern, true), (magnitudePattern, true), (sharesPattern, true)] ++ datePatterns ++
      [(longNumberPattern, false)] := by
  have htables : (scrubPats T).map (fun p => (p.1.render, p.2)) = (scrubPats noChars).map (fun p => (p.1.render, p.2)) := rfl
  rw [htables]
  decide +kernel

end

/-- `re.sub` reads the expression as a backtracking matcher. -/
def Reads (py : PyText) (T : CharTables) (p : Pat × Bool) : Prop :=
  ∀ f text, py.sub p.1.render p.2 f text = p.1.sub T p.2 f text

end Renderer
end AsymmetricCommittee
