import Linkage.Output.Marker

/-!
# Whitespace removal

Drops the whitespace and the block comments of a script that do not separate anything. Whitespace stays as one space
between two bytes of words and between two equal signs `+` or `-`, which would run together without it. Nothing inside
a quoted literal or a position marker changes, and a marker does not count as what stands before a space. Line
comments are not known, so a script that is to be stripped has none.
-/
namespace Linkage.Whitespace

def isBlankByte (b : UInt8) : Bool := b == 0x20 || b == 0x09 || b == 0x0A || b == 0x0D

/-- Letters, digits, `_`, `$` and every byte above ASCII. -/
def isWordByte (b : UInt8) : Bool :=
  (0x30 ≤ b && b ≤ 0x39) || (0x41 ≤ b && b ≤ 0x5A) || (0x61 ≤ b && b ≤ 0x7A) ||
    b == 0x5F || b == 0x24 || 0x80 ≤ b

/-- Double quote, single quote, backtick. -/
def isQuote (b : UInt8) : Bool := b == 0x22 || b == 0x27 || b == 0x60

def backslash : UInt8 := 0x5C
@[match_pattern] def slash : UInt8 := 0x2F
@[match_pattern] def star : UInt8 := 0x2A

/-- Whether two bytes mean something else without a space between them. -/
def runTogether (before after : UInt8) : Bool :=
  (isWordByte before && isWordByte after) || (before == after && (after == 0x2B || after == 0x2D))

/-- What the next byte of a script belongs to. -/
inductive Mode where
  | code
  | literal (quote : UInt8)
  -- The byte after a backslash in a literal.
  | escaped (quote : UInt8)
  | comment
  deriving DecidableEq, Repr

/-- Strip a script. `last` is the last byte kept, markers apart, and `gap` says whether something was dropped
since. The bytes kept so far are in `kept`. -/
def strip (mode : Mode) (last : Option UInt8) (gap : Bool) (kept : Array UInt8) : Bytes → Array UInt8
  | [] => kept
  | b :: rest =>
    match mode, b, rest with
    | .literal quote, b, rest =>
      let mode := if b = backslash then .escaped quote else if b = quote then .code else .literal quote
      strip mode (some b) false (kept.push b) rest
    | .escaped quote, b, rest => strip (.literal quote) (some b) false (kept.push b) rest
    | .comment, star, slash :: rest => strip .code last true kept rest
    | .comment, _, rest => strip .comment last true kept rest
    | .code, Marker.sentinel, h₁ :: h₂ :: h₃ :: h₄ :: rest =>
      strip .code last gap (kept ++ [Marker.sentinel, h₁, h₂, h₃, h₄]) rest
    | .code, slash, star :: rest => strip .comment last true kept rest
    | .code, b, rest =>
      if isBlankByte b then strip .code last true kept rest
      else
        let kept := if gap && last.any (runTogether · b) then kept.push 0x20 else kept
        strip (if isQuote b then .literal b else .code) (some b) false (kept.push b) rest

def remove (script : Bytes) : Bytes := (strip .code none false #[] script).toList

end Linkage.Whitespace
