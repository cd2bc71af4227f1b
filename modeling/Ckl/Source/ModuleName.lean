/-!
# Names of modules

A module is asked for by a specifier: a name or a path, with or without the extension of script files.
The specifier tells the file to look for, and the identifier under which the module is known: the last
part of the path without the extension.
-/

namespace Ckl.Source.Module

/-- The extension of script files. -/
def extension : List Char := ['.', 'c', 'k', 'l']

/-- Whether a text ends in the extension. -/
def hasExtension (cs : List Char) : Bool := extension.isSuffixOf cs

/-- The text without the extension, if it has one. -/
def dropExtension (cs : List Char) : List Char :=
  if hasExtension cs then cs.take (cs.length - extension.length) else cs

/-- Whether a character divides the parts of a path. -/
def isSeparator (c : Char) : Bool := c == '/' || c == '\\'

/-- The part of a path after its last separator. -/
def lastPart (cs : List Char) : List Char :=
  (cs.reverse.takeWhile fun c => !isSeparator c).reverse

/-- The file of a module: the specifier with the extension, which is appended if it is missing. -/
def fileName (specifier : String) : String :=
  let cs := specifier.toList
  if hasExtension cs then specifier else String.ofList (cs ++ extension)

/-- The identifier of a module: the last part of the specifier without the extension. -/
def identifier (specifier : String) : String :=
  String.ofList (dropExtension (lastPart specifier.toList))

end Ckl.Source.Module
