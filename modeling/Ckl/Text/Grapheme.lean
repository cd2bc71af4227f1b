import Ckl.Text.Grapheme.Tables

/-!
# Grapheme clusters

What a reader takes for one character may be several code points: a letter with its accents, a flag,
a family of emoji, a Hangul syllable spelled in parts. `graphemes` splits a text into such clusters by
the extended rules. A text is read from left to right; `Cluster` remembers what the rules need of the
cluster so far, and `Cluster.admits` says whether the next character still belongs to it.
-/

namespace Ckl.Text

namespace Grapheme

/-- The classes of characters that the boundary rules tell apart. -/
inductive Class where
  | carriageReturn
  | lineFeed
  | control
  | extend
  | joiner
  | regional
  | prepend
  | spacingMark
  | leadingJamo
  | vowelJamo
  | trailingJamo
  | openSyllable
  | closedSyllable
  | other
  deriving DecidableEq, Repr

/-- The class of a character. -/
def classOf (c : Char) : Class :=
  let n := c.toNat
  if n == 13 then .carriageReturn
  else if n == 10 then .lineFeed
  else if n < 32 || n == 127 then .control
  else if n < 127 then .other
  else if n == 0x200D then .joiner
  else if 0x1F1E6 ≤ n && n ≤ 0x1F1FF then .regional
  else if (0x1100 ≤ n && n ≤ 0x115F) || (0xA960 ≤ n && n ≤ 0xA97C) then .leadingJamo
  else if (0x1160 ≤ n && n ≤ 0x11A7) || (0xD7B0 ≤ n && n ≤ 0xD7C6) || n == 0x16D63 ||
      (0x16D67 ≤ n && n ≤ 0x16D6A) then .vowelJamo
  else if (0x11A8 ≤ n && n ≤ 0x11FF) || (0xD7CB ≤ n && n ≤ 0xD7FB) then .trailingJamo
  else if 0xAC00 ≤ n && n ≤ 0xD7A3 then
    if (n - 0xAC00) % 28 == 0 then .openSyllable else .closedSyllable
  else if controlRanges.contains c then .control
  else if extendRanges.contains c then .extend
  else if spacingMarkRanges.contains c then .spacingMark
  else if prependRanges.contains c then .prepend
  else .other

/-- How far the cluster has come towards two pictographs tied by a joiner. -/
inductive Tie where
  | none
  | pictograph
  | joined
  deriving DecidableEq, Repr

/-- How far the cluster has come towards a conjunct of two consonants. -/
inductive Conjunct where
  | none
  | consonant
  | linked
  deriving DecidableEq, Repr

/-- What the rules need to know of a cluster that has begun. -/
structure Cluster where
  /-- The class of its last character. -/
  last : Class
  tie : Tie
  conjunct : Conjunct
  /-- Whether it ends in a regional indicator that has no partner yet. -/
  openFlag : Bool
  deriving Repr

/-- The tie after one more character of class `cls`. -/
def Tie.next (tie : Tie) (c : Char) (cls : Class) : Tie :=
  if pictographRanges.contains c then .pictograph
  else match tie, cls with
    | .pictograph, .extend => .pictograph
    | .pictograph, .joiner => .joined
    | _, _ => .none

/-- The conjunct after one more character of class `cls`. The zero width non-joiner ends it. -/
def Conjunct.next (conjunct : Conjunct) (c : Char) (cls : Class) : Conjunct :=
  if cls = .other then
    if consonantRanges.contains c then .consonant else .none
  else if conjunct = .none then .none
  else if linkerRanges.contains c then .linked
  else if (cls = .extend && c.toNat != 0x200C) || cls = .joiner then conjunct
  else .none

/-- The cluster after `c`, which belongs to it. -/
def Cluster.push (cluster : Cluster) (c : Char) : Cluster :=
  let cls := classOf c
  { last := cls
    tie := cluster.tie.next c cls
    conjunct := cluster.conjunct.next c cls
    openFlag := cls = .regional && !cluster.openFlag }

/-- The cluster that `c` begins. -/
def Cluster.start (c : Char) : Cluster :=
  Cluster.push ⟨.other, .none, .none, false⟩ c

/-- Whether there is no boundary between the cluster and `c`. -/
def Cluster.admits (cluster : Cluster) (c : Char) : Bool :=
  match cluster.last, classOf c with
  | .carriageReturn, .lineFeed => true
  | .carriageReturn, _ | .lineFeed, _ | .control, _ => false
  | _, .carriageReturn | _, .lineFeed | _, .control => false
  | _, .extend | _, .joiner | _, .spacingMark => true
  | .prepend, _ => true
  | .leadingJamo, .leadingJamo | .leadingJamo, .vowelJamo | .leadingJamo, .openSyllable
  | .leadingJamo, .closedSyllable => true
  | .openSyllable, .vowelJamo | .openSyllable, .trailingJamo => true
  | .vowelJamo, .vowelJamo | .vowelJamo, .trailingJamo => true
  | .closedSyllable, .trailingJamo | .trailingJamo, .trailingJamo => true
  | .regional, .regional => cluster.openFlag
  | _, _ =>
    (cluster.tie = .joined && pictographRanges.contains c) ||
      (cluster.conjunct = .linked && consonantRanges.contains c)

/-- The clusters of a text: `begun` holds the characters of the current cluster, last first. -/
def split (begun : List Char) (cluster : Cluster) : List Char → List (List Char)
  | [] => [begun.reverse]
  | c :: rest =>
    if cluster.admits c then split (c :: begun) (cluster.push c) rest
    else begun.reverse :: split [c] (Cluster.start c) rest

end Grapheme

/-- The extended grapheme clusters of a text, in order. -/
def graphemes (text : String) : List String :=
  match text.toList with
  | [] => []
  | c :: rest => (Grapheme.split [c] (Grapheme.Cluster.start c) rest).map String.ofList

end Ckl.Text
