import Ckl.Store

/-!
# Scopes

How names are found. A frame together with the frames around it is a chain, and a name means what the
nearest frame of the chain binds it to. Assigning changes that binding in its place; defining binds the
name in the frame itself, and removing takes it from the frame itself.
-/

namespace Ckl.Store

/-- A frame and the frames around it, the nearest one first. -/
def chain (store : Store) (frame : FrameRef) : List FrameRef := frame :: (store.frame frame).outer

/-- What a frame itself binds a name to. -/
def getLocal? (store : Store) (frame : FrameRef) (name : String) : Option Value :=
  (store.frame frame).bindings.get? name

/-- What a name means in a frame. -/
def lookup? (store : Store) (frame : FrameRef) (name : String) : Option Value :=
  (store.chain frame).findSome? fun ref => store.getLocal? ref name

/-- The nearest frame that binds a name. -/
def owner? (store : Store) (frame : FrameRef) (name : String) : Option FrameRef :=
  (store.chain frame).find? fun ref => (store.frame ref).bindings.binds name

/-- Binds a name in a frame. -/
def define (store : Store) (frame : FrameRef) (name : String) (value : Value) : Store :=
  store.changeBindings frame (·.put name value)

/-- Removes a name from a frame. -/
def undefine (store : Store) (frame : FrameRef) (name : String) : Store :=
  store.changeBindings frame (·.erase name)

/-- Binds names in a frame, one after the other. -/
def defineAll (store : Store) (frame : FrameRef) (entries : List (String × Value)) : Store :=
  store.changeBindings frame (·.putAll entries)

/-- Gives a name that a frame knows another value. -/
def assign? (store : Store) (frame : FrameRef) (name : String) (value : Value) : Option Store :=
  (store.owner? frame name).map fun owner => store.define owner name value

/-- A new frame inside another one, in which some names are bound. -/
def enter (store : Store) (frame : FrameRef) (bindings : Bindings Value) : FrameRef × Store :=
  let outer := store.chain frame
  store.placeFrame { outer, bindings }

/-- The outermost frame around a frame. -/
def root (store : Store) (frame : FrameRef) : FrameRef :=
  ((store.frame frame).outer.getLast?).getD frame

end Ckl.Store
