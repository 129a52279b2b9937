import Mathlib.Logic.Equiv.Basic
import MoveTools.Library.Hex
import MoveTools.Index.Build

namespace MoveTools.Index.Build

/-! Which git dependencies share a directory. -/

def utf8 (s : Text) : List UInt8 := (String.ofList s).toByteArray.data.toList

theorem utf8_injective : Function.Injective utf8 := by
  intro s s' h
  have hbytes := String.toByteArray_inj.mp (ByteArray.ext (Array.toList_inj.mp h))
  exact String.ofList_injective hbytes

/-- `hex::encode` of the digest. -/
def hexDigest (sha3 : List UInt8 → List UInt8) (s : Text) : Text :=
  Hex.encodeLower ((sha3 (utf8 s)).map UInt8.toNat)

theorem hexDigest_injective {sha3 : List UInt8 → List UInt8} (h : Function.Injective sha3) :
    Function.Injective (hexDigest sha3) :=
  fun _ _ hs => utf8_injective (h (Hex.encodeLower_bytes_injective hs))

def Env.withDigest (env : Env) (sha3 : List UInt8 → List UInt8) : Env :=
  { env with digest := hexDigest sha3 }

def Git.hashed (git : Git) : Text := git.git ++ git.branch.getD [] ++ git.rev.getD []

section
variable {env : Env} {sha3 : List UInt8 → List UInt8} {git git' : Git}

theorem makeLocalName_congr (env : Env) (h : git.hashed = git'.hashed) :
    git.makeLocalName env = git'.makeLocalName env := by
  unfold Git.makeLocalName
  rw [show git.git ++ _ ++ _ = git'.git ++ _ ++ _ from h]

theorem makeLocalName_eq_iff (h : Function.Injective sha3) :
    git.makeLocalName (env.withDigest sha3) = git'.makeLocalName (env.withDigest sha3) ↔
      git.hashed = git'.hashed := by
  constructor
  · intro hname
    exact hexDigest_injective h (List.append_cancel_left hname)
  · exact makeLocalName_congr _

theorem gitResolve_other (hname : git.makeLocalName env ≠ git'.makeLocalName env)
    (input : Input env) (dir : env.Dir) :
    gitResolve input git' [(git.makeLocalName env, dir)] = (input.clone git').map fun dir' =>
      [(git.makeLocalName env, dir), (git'.makeLocalName env, dir')] :=
  if_neg fun hmem => hname (List.mem_singleton.mp hmem).symm

end

/-- Two dependencies have names of their own, and the second is cloned where the first has been,
when what is hashed for them differs. -/
theorem names_differ_iff (sha3 : List UInt8 → List UInt8) (hsha3 : Function.Injective sha3)
    (env : Env) (git git' : Git) :
    let e := env.withDigest sha3
    (git ≠ git' → git.makeLocalName e ≠ git'.makeLocalName e ∧
      ∀ (input : Input e) (dir : e.Dir), gitResolve input git' [(git.makeLocalName e, dir)] =
        (input.clone git').map fun dir' =>
          [(git.makeLocalName e, dir), (git'.makeLocalName e, dir')]) ↔
    (git ≠ git' → git.hashed ≠ git'.hashed) := by
  intro e
  refine imp_congr_right fun _ => ?_
  rw [ne_eq, ne_eq, makeLocalName_eq_iff hsha3]
  refine and_iff_left_of_imp fun hhashed => gitResolve_other ?_
  exact fun hname => hhashed ((makeLocalName_eq_iff hsha3).mp hname)

/-- The digests of two texts are as Sha3-256 has them. -/
def sampleSha3 : Equiv.Perm (List UInt8) :=
  (Equiv.swap (utf8 "https://e.org/std.git".toList)
    [223, 31, 146, 56, 74, 124, 130, 171, 197, 53, 105, 4, 228, 136, 69, 216, 145, 116, 183, 193,
      235, 202, 75, 161, 106, 254, 7, 41, 75, 131, 103, 234]).trans
  (Equiv.swap (utf8 "https://e.org/move.gitmaster".toList)
    [113, 175, 186, 241, 99, 142, 36, 122, 199, 52, 224, 200, 131, 86, 133, 227, 85, 7, 167, 138,
      40, 226, 220, 88, 23, 193, 25, 73, 56, 145, 96, 243])

theorem std_apart_from_move :
    Git.makeLocalName (plainEnv.withDigest sampleSha3) ⟨"https://e.org/std.git".toList, none, none⟩ ≠
      Git.makeLocalName (plainEnv.withDigest sampleSha3)
        ⟨"https://e.org/move.git".toList, some "master".toList, none⟩ :=
  ((names_differ_iff sampleSha3 sampleSha3.injective plainEnv _ _).mpr (fun _ => by decide)
    (by decide)).1

/-- A branch is read as the end of the address, whatever is hashed how. -/
theorem branch_taken_for_url : ∃ git git' : Git, git ≠ git' ∧
    ∀ env : Env, git.makeLocalName env = git'.makeLocalName env :=
  ⟨⟨"https://e.org/std".toList, some "v1".toList, none⟩, ⟨"https://e.org/stdv1".toList, none, none⟩,
    by decide, fun env => makeLocalName_congr env (by decide)⟩

end MoveTools.Index.Build
