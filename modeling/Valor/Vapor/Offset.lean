import Valor.Vapor.Patch

/-! What `coro_member_offset` tells about the members of a frame. The result is a
`uint16_t`, whose largest value stands for a member that is not there. -/
namespace Valor.Vapor

/-- The record of the frame has one member named `n`; it has sixteen bits and begins with
the byte `offset`. -/
structure MemberAt (types : Types) (r : Decl) (n : String) (offset : Nat) : Prop where
  record : (types (types r.type).type).code = .recordType
  member : ∃ f ∈ (types (types r.type).type).fields, f.code = .fieldDecl ∧
    f.nameStr = n ∧ f.size = 16 ∧ f.fieldBitOffset % 8 = 0 ∧
    f.fieldOffset + f.fieldBitOffset / 8 = offset
  unique : ∀ f ∈ (types (types r.type).type).fields,
    ∀ g ∈ (types (types r.type).type).fields, f.code = .fieldDecl → g.code = .fieldDecl →
      f.nameStr = n → g.nameStr = n → f = g

structure Absent (types : Types) (r : Decl) (n : String) : Prop where
  record : (types (types r.type).type).code = .recordType
  missing : ∀ f ∈ (types (types r.type).type).fields, f.code = .fieldDecl → f.nameStr ≠ n

/-- The results tell where the members are, and which are there; and the constant that
`patch_seri` puts into the accessors is good for the frame. -/
structure Exact (ndebug : Bool) (types : Types) (r : Decl) : Prop where
  exact : ∀ n o, MemberAt types r n o → coroMemberOffset ndebug types r n = some o
  distinct : ∀ n n' o o', MemberAt types r n o → MemberAt types r n' o' → o ≠ o' →
    coroMemberOffset ndebug types r n ≠ coroMemberOffset ndebug types r n'
  absent : ∀ n n' o, Absent types r n → MemberAt types r n' o →
    coroMemberOffset ndebug types r n ≠ coroMemberOffset ndebug types r n'
  patched : ∀ o, ResumeIndexAt types r o → ∀ globals k k', Accessors globals k k' →
    ∃ globals', patchOne ndebug types globals r = some globals' ∧ Works globals' o

variable {ndebug : Bool} {types : Types} {r : Decl} {n : String} {offset : Nat}

theorem ResumeIndexAt.memberAt (h : ResumeIndexAt types r offset) :
    MemberAt types r resumeIndex offset :=
  ⟨h.record, h.member, h.unique⟩

theorem MemberAt.narrowed (h : MemberAt types r n offset) :
    coroMemberOffset ndebug types r n = some (offset % 2 ^ 16) :=
  coroMemberOffset_member h.record h.member h.unique

theorem Absent.largest (h : Absent types r n) :
    coroMemberOffset ndebug types r n = some (2 ^ 16 - 1) := by
  have search : (types (types r.type).type).fields.find?
      (fun f => f.code = .fieldDecl ∧ f.nameStr = n) = none := by
    apply List.find?_eq_none.mpr
    intro f mem accepted
    simp only [decide_eq_true_eq] at accepted
    exact h.missing f mem accepted.1 accepted.2
  unfold coroMemberOffset
  simp only [h.record, search, ne_eq, not_true_eq_false, if_false]

/-- Some name is longer than all that are there together. -/
theorem exists_absent (record : (types (types r.type).type).code = .recordType) :
    ∃ n, Absent types r n := by
  let names := (types (types r.type).type).fields.map fun f => f.nameStr.toList
  refine ⟨String.ofList ('a' :: names.flatten), record, ?_⟩
  intro f mem _ same
  have part : f.nameStr.toList.Sublist names.flatten :=
    List.sublist_flatten_of_mem (List.mem_map_of_mem mem)
  have long : f.nameStr.toList.length = names.flatten.length + 1 := by
    rw [same, String.toList_ofList, List.length_cons]
  have short := part.length_le
  omega

/-- The type of the result has room for all offsets but the largest, which is taken. -/
theorem coro_member_offset_exact_iff (ndebug : Bool) (types : Types) (r : Decl) :
    Exact ndebug types r ↔ ∀ n o, MemberAt types r n o → o < 2 ^ 16 - 1 := by
  constructor
  · intro h n o there
    obtain ⟨missing, absent⟩ := exists_absent there.record
    have narrowed : o % 2 ^ 16 = o :=
      Option.some.inj (there.narrowed.symm.trans (h.exact n o there))
    have other : o ≠ 2 ^ 16 - 1 := by
      intro top
      apply h.absent missing n o absent there
      calc coroMemberOffset ndebug types r missing
        _ = some (2 ^ 16 - 1) := absent.largest
        _ = some o := congrArg some top.symm
        _ = coroMemberOffset ndebug types r n := (h.exact n o there).symm
    omega
  · intro small
    have exact' : ∀ n o, MemberAt types r n o → coroMemberOffset ndebug types r n = some o := by
      intro n o there
      have lt := small n o there
      exact there.narrowed.trans (congrArg some (Nat.mod_eq_of_lt (by omega)))
    refine ⟨exact', ?_, ?_, ?_⟩
    · intro n n' o o' there there' ne same
      apply ne
      exact Option.some.inj ((exact' n o there).symm.trans (same.trans (exact' n' o' there')))
    · intro n n' o absent there same
      have largest : 2 ^ 16 - 1 = o :=
        Option.some.inj (absent.largest.symm.trans (same.trans (exact' n' o there)))
      have lt := small n' o there
      omega
    · intro o index globals k k' accessors
      have lt := small resumeIndex o index.memberAt
      obtain ⟨globals', patched, acc⟩ := patchOne_spec ndebug accessors index (by omega)
      exact ⟨globals', patched, works_of_accessors acc⟩

/-- A frame whose promise has more than 64 KiB. -/
def largeFrame : Types
  | 0 => ⟨.pointerType, 1, []⟩
  | 1 => ⟨.recordType, 0, frameRecord 65570⟩
  | _ => ⟨.integerType, 0, []⟩

example : coroMemberOffset false largeFrame (framePtr 0) resumeIndex = some 34 := by decide

theorem not_coro_member_offset_exact : ¬ ∀ ndebug types r, Exact ndebug types r := by
  intro claim
  have index : ResumeIndexAt largeFrame (framePtr 0) 65570 := frameRecord_index 65570 rfl
  have right := (claim false largeFrame (framePtr 0)).exact resumeIndex 65570 index.memberAt
  have impossible : 65570 % 2 ^ 16 = 65570 := Option.some.inj (index.memberAt.narrowed.symm.trans right)
  exact absurd impossible (by decide)

end Valor.Vapor
