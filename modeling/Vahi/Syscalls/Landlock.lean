import Mathlib.Data.List.DropRight
import Vahi.Types.Errno

/-!
# Landlock rulesets

`crates/syscalls/src/landlock.rs`. Paths are byte strings.
-/

namespace Vahi.Syscalls

open Vahi.Types

/-- A path, as the bytes of the source's `String`. -/
abbrev Path := List (BitVec 8)

def slash : BitVec 8 := 0x2F

structure LandlockPathRule where
  pathPrefix : Path
  allowedAccess : BitVec 64
  handledAccess : BitVec 64
  deriving DecidableEq

structure LandlockRuleset where
  rules : List LandlockPathRule
  handledAccessFs : BitVec 64
  deriving DecidableEq

def trimEndSlashes (path : Path) : Path :=
  path.rdropWhile (· = slash)

def LandlockPathRule.matchesPath (rule : LandlockPathRule) (path : Path) : Bool :=
  rule.pathPrefix.isPrefixOf path || path == trimEndSlashes rule.pathPrefix

/-- The search for the rule with the longest prefix: the best rule so far with
its length. -/
def bestMatch (path : Path) (best : Option LandlockPathRule × ℕ) (rule : LandlockPathRule) :
    Option LandlockPathRule × ℕ :=
  if rule.matchesPath path && best.2 < rule.pathPrefix.length then
    (some rule, rule.pathPrefix.length)
  else best

namespace LandlockRuleset

def checkAccess (rs : LandlockRuleset) (path : Path) (access : BitVec 64) : Bool :=
  let requested := access &&& rs.handledAccessFs
  if requested = 0 then true
  else
    match (rs.rules.foldl (bestMatch path) (none, 0)).1 with
    | some rule => requested &&& rule.allowedAccess = requested
    | none => requested = 0

end LandlockRuleset

structure LandlockState where
  rulesets : List LandlockRuleset
  active : Bool
  deriving DecidableEq

namespace LandlockState

def default : LandlockState where
  rulesets := []
  active := false

def checkAccess (st : LandlockState) (path : Path) (access : BitVec 64) : Bool :=
  if !st.active || st.rulesets.isEmpty then true
  else st.rulesets.all (·.checkAccess path access)

@[simp] theorem default_checkAccess (path : Path) (access : BitVec 64) :
    default.checkAccess path access = true := rfl

end LandlockState

end Vahi.Syscalls
