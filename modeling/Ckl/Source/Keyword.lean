/-!
# Keywords

The words that scripts cannot use as names.
-/

namespace Ckl.Source

/-- A reserved word. -/
inductive Keyword where
  | and
  | as
  | break
  | catch
  | continue
  | define
  | do
  | elif
  | else
  | end
  | error
  | finally
  | fn
  | for
  | if
  | import
  | in
  | is
  | not
  | or
  | require
  | return
  | then
  | unqualified
  | while
  deriving DecidableEq, Repr

namespace Keyword

/-- The word itself. -/
def text : Keyword → String
  | .and => "and"
  | .as => "as"
  | .break => "break"
  | .catch => "catch"
  | .continue => "continue"
  | .define => "def"
  | .do => "do"
  | .elif => "elif"
  | .else => "else"
  | .end => "end"
  | .error => "error"
  | .finally => "finally"
  | .fn => "fn"
  | .for => "for"
  | .if => "if"
  | .import => "import"
  | .in => "in"
  | .is => "is"
  | .not => "not"
  | .or => "or"
  | .require => "require"
  | .return => "return"
  | .then => "then"
  | .unqualified => "unqualified"
  | .while => "while"

/-- All reserved words. -/
def all : List Keyword :=
  [.and, .as, .break, .catch, .continue, .define, .do, .elif, .else, .end, .error, .finally, .fn, .for,
    .if, .import, .in, .is, .not, .or, .require, .return, .then, .unqualified, .while]

/-- The reserved word that a text is. -/
def ofText? (text : String) : Option Keyword := all.find? (·.text == text)

end Keyword

end Ckl.Source
