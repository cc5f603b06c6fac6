/-!
# The marks of the pattern language

Every byte of a pattern stands for itself, except these marks.  After an escape mark they
stand for themselves too.
-/

namespace Respell.Mark

/-- Takes the next byte literally. -/
def escape : UInt8 := '%'.toUInt8

/-- Repeats at most once. -/
def optional : UInt8 := '?'.toUInt8

/-- Repeats any number of times. -/
def star : UInt8 := '*'.toUInt8

/-- Repeats once or more often. -/
def plus : UInt8 := '+'.toUInt8

/-- Begins a count. -/
def countOpen : UInt8 := '{'.toUInt8

/-- Ends a count. -/
def countClose : UInt8 := '}'.toUInt8

/-- Begins a group. -/
def groupOpen : UInt8 := '('.toUInt8

/-- Ends a group. -/
def groupClose : UInt8 := ')'.toUInt8

/-- Separates the branches of a group, the members of a class and the bounds of a
count. -/
def comma : UInt8 := ','.toUInt8

/-- Begins the replacement of a branch or a member. -/
def replace : UInt8 := '|'.toUInt8

/-- Begins a class reference. -/
def classOpen : UInt8 := '<'.toUInt8

/-- Begins the members of a class within its reference. -/
def declare : UInt8 := ':'.toUInt8

/-- Ends a class reference. -/
def classClose : UInt8 := '>'.toUInt8

/-- Begins a set. -/
def setOpen : UInt8 := '['.toUInt8

/-- Complements a set, as its first byte. -/
def negate : UInt8 := '^'.toUInt8

/-- Joins the ends of an interval in a set. -/
def range : UInt8 := '-'.toUInt8

/-- Ends a set. -/
def setClose : UInt8 := ']'.toUInt8

/-- Stands for any byte. -/
def wildcard : UInt8 := '.'.toUInt8

/-- A branch of a group cannot go on with this byte. -/
def endsBranch (b : UInt8) : Bool := b = comma || b = groupClose || b = replace

/-- The replacement of a branch ends in front of this byte. -/
def endsBranchReplacement (b : UInt8) : Bool := b = comma || b = groupClose

/-- The text of a member ends in front of this byte. -/
def endsMember (b : UInt8) : Bool := b = comma || b = classClose || b = replace

/-- The replacement of a member ends in front of this byte. -/
def endsMemberReplacement (b : UInt8) : Bool := b = comma || b = classClose

/-- The name of a class ends in front of this byte. -/
def endsName (b : UInt8) : Bool := b = classClose || b = declare

/-- The byte begins a group, a class reference, a set or a wildcard. -/
def beginsItem (b : UInt8) : Bool :=
  b = groupOpen || b = classOpen || b = setOpen || b = wildcard

end Respell.Mark
