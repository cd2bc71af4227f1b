import Ckl.Source.Node
import Ckl.Number.Decimal
import Ckl.Text.Quoted

/-!
# Printed syntax trees

A tree as script text. Reading the text of an expression gives the expression back, up to places:
operators are printed as the calls they stand for, and `and`, `or` and `in` in parentheses.
-/

namespace Ckl.Source

/-- The truth values as they are written. -/
def booleanText (value : Bool) : List Char := (if value then "TRUE" else "FALSE").toList

/-- A pattern between its slashes. -/
def patternText (source : String) : List Char := '/' :: '/' :: source.toList ++ ['/', '/']

/-- A literal as it is written. -/
def Literal.text : Literal → List Char
  | boolean value => booleanText value
  | int value => Number.wholeText value.toInt
  | decimal value => Number.decimalText value
  | string value => Text.quote value.toList
  | pattern source => patternText source

/-- Texts with commas between them. -/
def commas (texts : List (List Char)) : List Char := (texts.intersperse [',', ' ']).flatten

/-- Names with commas between them. -/
def commaNames (names : List String) : List Char := commas (names.map String.toList)

/-- The brackets around a collection. -/
def CollectionKind.brackets : CollectionKind → List Char × List Char
  | .list => (['['], [']'])
  | .set => ("<<".toList, ">>".toList)
  | .map => ("<<<".toList, ">>>".toList)

/-- The word for a selection, with a blank behind it. -/
def Selection.text : Selection → List Char
  | .items => []
  | .keys => "keys ".toList
  | .values => "values ".toList
  | .entries => "entries ".toList

/-- What follows the module of a `require`. -/
def ImportStyle.text : ImportStyle → List Char
  | .qualified none => []
  | .qualified (some localName) => " as ".toList ++ localName.toList
  | .unqualified => " unqualified".toList
  | .listed names =>
    " import [".toList ++
      commas (names.map fun (name, localName) =>
        if name = localName then name.toList
        else name.toList ++ " as ".toList ++ localName.toList) ++ [']']

/-- A name and an equality sign in front of a text, if there is a name. -/
def named (name : Option String) (text : List Char) : List Char :=
  match name with
  | some name => name.toList ++ '=' :: text
  | none => text

mutual

/-- A node as script text. -/
def Node.chars : Node → List Char
  | .mk _ form => form.chars
termination_by structural node => node

/-- A form as script text. -/
def Form.chars : Form → List Char
  | .literal value => value.text
  | .name name => name.toList
  | .spread inner => "...".toList ++ inner.chars
  | .list items => '[' :: commas (charsEach items) ++ [']']
  | .set items => "<<".toList ++ commas (charsEach items) ++ ">>".toList
  | .map items => "<<<".toList ++ commas (charsMapItems items) ++ ">>>".toList
  | .object members => "<*".toList ++ commas (charsMembers members) ++ "*>".toList
  | .comprehension parts => charsComprehension parts
  | .block body handlers cleanup =>
    "do".toList ++ charsBody body ++ charsHandlers handlers ++
      (if cleanup.isEmpty then [] else " finally".toList ++ charsBody cleanup) ++ " end".toList
  | .choice branches otherwise =>
    charsBranches "if ".toList branches ++ charsOption " else ".toList otherwise
  | .and left right => '(' :: left.chars ++ " and ".toList ++ right.chars ++ [')']
  | .or left right => '(' :: left.chars ++ " or ".toList ++ right.chars ++ [')']
  | .not operand => "not ".toList ++ operand.chars
  | .contained element container =>
    '(' :: element.chars ++ " in ".toList ++ container.chars ++ [')']
  | .call callee arguments =>
    callee.chars ++ '(' :: commas (charsArguments arguments) ++ [')']
  | .index target key => target.chars ++ '[' :: key.chars ++ [']']
  | .assignIndex target key value =>
    target.chars ++ '[' :: key.chars ++ "] = ".toList ++ value.chars
  | .invoke target member arguments =>
    target.chars ++ "->".toList ++ member.toList ++ '(' :: commas (charsArguments arguments) ++ [')']
  | .assign name value => name.toList ++ " = ".toList ++ value.chars
  | .assignAll names value => '[' :: commaNames names ++ "] = ".toList ++ value.chars
  | .define name value => "def ".toList ++ name.toList ++ " = ".toList ++ value.chars
  | .defineAll names value => "def [".toList ++ commaNames names ++ "] = ".toList ++ value.chars
  | .function lambda => charsLambda lambda
  | .loop parts => charsLoop parts
  | .loopWhile condition body => "while ".toList ++ condition.chars ++ ' ' :: body.chars
  | .breakLoop => "break".toList
  | .continueLoop => "continue".toList
  | .giveBack value => "return".toList ++ charsOption [' '] value
  | .raise payload => "error ".toList ++ payload.chars
  | .require module style => "require ".toList ++ module.chars ++ style.text
termination_by structural form => form

/-- Each node as script text. -/
def charsEach : List Node → List (List Char)
  | [] => []
  | node :: nodes => node.chars :: charsEach nodes
termination_by structural nodes => nodes

/-- The nodes as statements, each behind a blank and before a semicolon. -/
def charsBody : List Node → List Char
  | [] => []
  | node :: nodes => ' ' :: node.chars ++ ';' :: charsBody nodes
termination_by structural nodes => nodes

/-- A node behind an introduction, or nothing. -/
def charsOption (introduction : List Char) : Option Node → List Char
  | none => []
  | some node => introduction ++ node.chars
termination_by structural node => node

/-- The text of an item of a map. -/
def charsMapItem : MapItem Node → List Char
  | .entry key value => key.chars ++ " => ".toList ++ value.chars
  | .spread inner => "...".toList ++ inner.chars
termination_by structural item => item

/-- The texts of the items of a map. -/
def charsMapItems : List (MapItem Node) → List (List Char)
  | [] => []
  | item :: items => charsMapItem item :: charsMapItems items
termination_by structural items => items

/-- The texts of the members of an object. -/
def charsMembers : List (Member Node) → List (List Char)
  | [] => []
  | ⟨name, value⟩ :: members => (name.toList ++ '=' :: value.chars) :: charsMembers members
termination_by structural members => members

/-- The text of a comprehension. -/
def charsComprehension : Comprehension Node → List Char
  | ⟨kind, element, value, binder, source, condition⟩ =>
    kind.brackets.1 ++ element.chars ++ charsOption " => ".toList value ++ " for ".toList ++
      binder.toList ++ " in ".toList ++ source.chars ++ charsOption " if ".toList condition ++
      kind.brackets.2
termination_by structural parts => parts

/-- The conditions with their consequences; the first one is introduced by `introduction`. -/
def charsBranches (introduction : List Char) : List (Branch Node) → List Char
  | [] => []
  | ⟨condition, body⟩ :: branches =>
    introduction ++ condition.chars ++ " then ".toList ++ body.chars ++
      charsBranches " elif ".toList branches
termination_by structural branches => branches

/-- The text of the handlers of a block. -/
def charsHandlers : List (Handler Node) → List Char
  | [] => []
  | ⟨filter, body⟩ :: handlers =>
    " catch".toList ++ (if filter.isNone then " all".toList else charsOption [' '] filter) ++
      charsBody body ++ charsHandlers handlers
termination_by structural handlers => handlers

/-- The texts of the arguments of a call. -/
def charsArguments : List (Argument Node) → List (List Char)
  | [] => []
  | ⟨name, value⟩ :: arguments => named name value.chars :: charsArguments arguments
termination_by structural arguments => arguments

/-- The texts of parameters. -/
def charsParameters : List (Parameter Node) → List (List Char)
  | [] => []
  | ⟨name, fallback⟩ :: parameters =>
    (name.toList ++ charsOption ['='] fallback) :: charsParameters parameters
termination_by structural parameters => parameters

/-- The text of a function. -/
def charsLambda : Lambda Node → List Char
  | ⟨_, parameters, rest, body⟩ =>
    "fn(".toList ++
      commas (charsParameters parameters ++ (rest.map fun name => name.toList ++ "...".toList).toList) ++
      ") ".toList ++ body.chars
termination_by structural lambda => lambda

/-- The text of a loop. -/
def charsLoop : Loop Node → List Char
  | ⟨names, destructures, selection, source, body⟩ =>
    "for ".toList ++
      (if destructures then '[' :: commaNames names ++ [']'] else commaNames names) ++
      " in ".toList ++ selection.text ++ source.chars ++ ' ' :: body.chars
termination_by structural parts => parts

end

/-- A node as script text. -/
def Node.text (node : Node) : String := String.ofList node.chars

end Ckl.Source
