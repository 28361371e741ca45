import Mathlib.Data.List.Basic
import Shades.Cells

/-!
# Shades.Root

The root block of `root-def.h`: a fixed sequence of words, the first ones with names.
Some of them are pointers to cells and are traced by the collector.  `suspended_accu`
is one only if the word before it says so, and it is declared as a word.
-/

namespace Shades

/-- The named words of the root block (`root_ix_t`), in the order of `root-def.h`. -/
inductive RootIx where
  | magicCookie
  | timeStampHi
  | timeStampLo
  | internedShtrings
  | bcodes
  | globals
  | suspendedCont
  | suspendedAccuType
  | suspendedAccu
  | suspendedThreadId
  | suspendedPriority
  | contexts
  | context1
  | context2
  | context3
  | blockedThreads
  | highestThreadId
  | oidMap
  | oidFreelist
  | oidInUse
  | oidMax
  | oidAllocationCursor
  | oidPrevRandom
  | cppView
  | cppConsistent
  | test1
  | test2
  | test3
  | test4
  | testBranch
  | testTeller
  | testAccount
  | testHistory
  | testAccInfo
  | testCustInfo
  | testHotInfo
  | testStoreInfo
  | generationPinfoList
  | prevGenerationPinfoList
  | prevPrevGenerationPinfoList
  | youngestGenerationNumberOfPages
  | youngestGenerationNumber
  | youngestGenerationNumberOfReferringPtrs
  | youngestGenerationPageNumber0
  | youngestGenerationDiskPageNumber0
  deriving DecidableEq, Repr

/-- `NUMBER_OF_ROOT_IXS`. -/
def numberOfRootIxs : Nat := 45

/-- `NUMBER_OF_ROOT_BLOCK_ITEMS`: the root block is a disk block. -/
def numberOfRootBlockItems : Nat := 512 / 4

namespace RootIx

/-- `ROOT_IX_...`. -/
def ix (r : RootIx) : Nat := r.ctorIdx

theorem ix_injective : Function.Injective ix := Function.LeftInverse.injective ofNat_ctorIdx

theorem ix_lt (r : RootIx) : r.ix < numberOfRootIxs := by
  cases r <;> decide

/-- The words that are declared with `ROOT_WORD`, and their initial values. -/
def initialWord : RootIx → Option Nat
  | magicCookie => some 0x50073A61
  | timeStampLo => some 1
  | timeStampHi | suspendedAccuType | suspendedAccu | suspendedThreadId | suspendedPriority
    | highestThreadId | oidInUse | oidMax | oidAllocationCursor | oidPrevRandom
    | prevGenerationPinfoList | prevPrevGenerationPinfoList | youngestGenerationNumberOfPages
    | youngestGenerationNumberOfReferringPtrs | youngestGenerationPageNumber0
    | youngestGenerationDiskPageNumber0 => some 0
  | youngestGenerationNumber => some 0xFFFFFFFF
  | _ => none

/-- The words that are declared with `ROOT_PTR`. -/
def isPtr (r : RootIx) : Bool := r.initialWord.isNone

end RootIx

/-- `root_ix_is_ptr`. -/
def rootIxIsPtr (i : Nat) : Bool := (RootIx.ofNat i).isPtr

/-- `init_root`. -/
def initRoot (i : Nat) : Nat := (RootIx.ofNat i).initialWord.getD nullWord

end Shades
