import Trellis.Site

/-! What is being defined at the moment, from the outermost declaration to the
innermost. A report shows this stack in a condensed form: frames without a
site say nothing to a reader, and of several frames of one category only the
innermost is worth showing. -/
namespace Trellis

structure ContextFrame where
  message : String
  site : Option Site
  category : Option String
deriving DecidableEq, Repr

/-- The frames, innermost first. -/
structure ContextStack where
  frames : List ContextFrame
deriving DecidableEq, Repr

namespace ContextStack

def empty : ContextStack := ⟨[]⟩

def push (s : ContextStack) (f : ContextFrame) : ContextStack := ⟨f :: s.frames⟩

/-- The innermost frame and the stack without it. -/
def pop (s : ContextStack) : Option (ContextFrame × ContextStack) :=
  match s.frames with
  | [] => none
  | f :: rest => some (f, ⟨rest⟩)

def depth (s : ContextStack) : Nat := s.frames.length

/-- Forget frames from the inside until at most `depth` are left. -/
def truncate (s : ContextStack) (depth : Nat) : ContextStack :=
  ⟨s.frames.drop (s.frames.length - depth)⟩

/-- The frames to show among `frames`, given the categories shown further in. -/
def condense (shown : List String) : List ContextFrame → List (String × Site)
  | [] => []
  | f :: rest =>
    match f.site, f.category with
    | none, _ => condense shown rest
    | some site, none => (f.message, site) :: condense shown rest
    | some site, some c =>
      if c ∈ shown then condense shown rest
      else (f.message, site) :: condense (c :: shown) rest

/-- The condensed context, innermost first. -/
def structured (s : ContextStack) : List (String × Site) := condense [] s.frames

/-- The site of the innermost frame that has one. -/
def site (s : ContextStack) : Option Site := s.frames.findSome? (·.site)

theorem truncate_push (s : ContextStack) (f : ContextFrame) :
    (s.push f).truncate s.depth = s := by
  cases s
  simp [truncate, push, depth]

end ContextStack
end Trellis
