import Sozvon.TokenLists

/-!
# The groups that a token opens

The audience of a JWT is compared with the path of the group, a stateful token's
group with its name. The empty name is the root: what has it for its group
opens all groups or none.
-/
namespace Sozvon.Token

/-- `strings.HasPrefix` -/
def hasPrefix (s front : String) : Bool := front.toList.isPrefixOf s.toList

/-- `strings.HasSuffix` -/
def hasSuffix (s back : String) : Bool := back.toList.isSuffixOf s.toList

def Stateful.matches (token : Stateful) (group : String) : Bool :=
  if group = "" then token.includeSubgroups && token.group == ""
  else if group = token.group then true
  else if token.includeSubgroups then
    if token.group = "" then true else hasPrefix group (token.group ++ "/")
  else false

/-- The match of a JWT, on the path of its audience. -/
def matchGroup (pth group : String) (includeSubgroups : Bool) : Bool :=
  if !includeSubgroups then pth == "/group/" ++ group ++ "/"
  else if !hasPrefix pth "/group/" then false
  else if !hasSuffix pth "/" then false
  else hasPrefix ("/group/" ++ group ++ "/") pth

/-- The path of a group, that of the root being `/group/`. -/
def audiencePath (group : String) : String :=
  if group = "" then "/group/" else "/group/" ++ group ++ "/"

/-- The names that a token of a group is for. The root has all names below it, but is no name
of a group itself. -/
def Opens (group : String) (includeSubgroups : Bool) (name : String) : Prop :=
  if group = "" then includeSubgroups = true
  else name = group ∨ includeSubgroups = true ∧ Below group name

theorem hasPrefix_iff (s front : String) : hasPrefix s front = true ↔ front.toList <+: s.toList :=
  List.isPrefixOf_iff_prefix

theorem hasSuffix_append (s t : String) : hasSuffix (s ++ t) t = true := by
  rw [hasSuffix, String.toList_append]
  exact List.isSuffixOf_iff_suffix.mpr (List.suffix_append ..)

theorem hasPrefix_append (s t : String) : hasPrefix (s ++ t) s = true := by
  rw [hasPrefix_iff, String.toList_append]
  exact List.prefix_append ..

theorem opens_root (includeSubgroups : Bool) (name : String) :
    Opens "" includeSubgroups name ↔ includeSubgroups = true := by rw [Opens, if_pos rfl]

theorem opens_iff {group : String} (hgroup : group ≠ "") (includeSubgroups : Bool) (name : String) :
    Opens group includeSubgroups name ↔
      name = group ∨ includeSubgroups = true ∧ Below group name := by rw [Opens, if_neg hgroup]

theorem not_below_root (group : String) : ¬ Below group "" := fun h => by
  rw [Below, String.toList_append] at h
  exact absurd (List.prefix_nil.mp h) (List.append_ne_nil_of_right_ne_nil _ (by decide))

theorem matches_iff (token : Stateful) (name : String) :
    token.matches name = true ↔ Opens token.group token.includeSubgroups name := by
  unfold Stateful.matches
  by_cases hroot : token.group = ""
  · rw [hroot, opens_root]
    by_cases hname : name = ""
    · rw [if_pos hname, beq_self_eq_true, Bool.and_true]
    · rw [if_neg hname, if_neg hname, if_pos rfl]
      cases token.includeSubgroups <;> decide
  · rw [opens_iff hroot]
    by_cases hname : name = ""
    · rw [if_pos hname, beq_eq_false_iff_ne.mpr hroot, Bool.and_false, hname]
      refine iff_of_false Bool.false_ne_true ?_
      rintro (heq | ⟨-, hbelow⟩)
      · exact hroot heq.symm
      · exact not_below_root token.group hbelow
    · rw [if_neg hname]
      by_cases hsame : name = token.group
      · rw [if_pos hsame]
        exact iff_of_true rfl (.inl hsame)
      · rw [if_neg hsame, or_iff_right hsame, if_neg hroot]
        cases token.includeSubgroups with
        | false => exact iff_of_false Bool.false_ne_true fun h => Bool.false_ne_true h.1
        | true =>
            rw [if_pos rfl, hasPrefix_iff, and_iff_right rfl]
            exact Iff.rfl

/-- A name with a slash after it continues a group at a slash just when it is the group or
does so without. -/
theorem prefix_slash_iff (group name : String) :
    (group ++ "/").toList <+: (name ++ "/").toList ↔ name = group ∨ Below group name := by
  have hslash : "/".toList = ['/'] := rfl
  rw [Below, String.toList_append, String.toList_append, hslash, List.prefix_concat_iff,
    List.append_left_inj, String.toList_inj, eq_comm]

theorem matchGroup_false_iff (pth name : String) :
    matchGroup pth name false = true ↔ pth = "/group/" ++ name ++ "/" := by
  rw [matchGroup, Bool.not_false, if_pos rfl, beq_iff_eq]

theorem matchGroup_true_iff (group name : String) :
    matchGroup (audiencePath group) name true = true ↔
      (audiencePath group).toList <+: ("/group/" ++ name ++ "/").toList := by
  have hfront : hasPrefix (audiencePath group) "/group/" = true := by
    unfold audiencePath
    split_ifs
    · decide
    · rw [String.append_assoc]
      exact hasPrefix_append ..
  have hback : hasSuffix (audiencePath group) "/" = true := by
    unfold audiencePath
    split_ifs
    · decide
    · exact hasSuffix_append ..
  rw [matchGroup, Bool.not_true, if_neg Bool.false_ne_true, hfront, hback, Bool.not_true,
    if_neg Bool.false_ne_true, if_neg Bool.false_ne_true, hasPrefix_iff]

theorem matchGroup_iff (group name : String) (includeSubgroups : Bool) :
    matchGroup (audiencePath group) name includeSubgroups = true ↔
      Opens group includeSubgroups name := by
  by_cases hroot : group = ""
  · rw [hroot, opens_root]
    cases includeSubgroups with
    | false =>
        refine iff_of_false (fun h => ?_) Bool.false_ne_true
        have hpath := congrArg String.length ((matchGroup_false_iff _ name).mp h)
        rw [audiencePath, if_pos rfl, String.length_append, String.length_append] at hpath
        have hslash : "/".length = 1 := rfl
        omega
    | true =>
        refine iff_of_true ((matchGroup_true_iff "" name).mpr ?_) rfl
        rw [audiencePath, if_pos rfl, String.append_assoc, String.toList_append]
        exact List.prefix_append ..
  · rw [opens_iff hroot]
    cases includeSubgroups with
    | false =>
        rw [matchGroup_false_iff, audiencePath, if_neg hroot, String.append_assoc,
          String.append_assoc, String.append_right_inj, String.append_left_inj, eq_comm]
        exact (or_iff_left fun h => Bool.false_ne_true h.1).symm
    | true =>
        rw [matchGroup_true_iff, audiencePath, if_neg hroot, String.append_assoc,
          String.append_assoc, String.toList_append, String.toList_append (s := "/group/"),
          List.prefix_append_right_inj, prefix_slash_iff, and_iff_right rfl]

/-- Both kinds of token open the same groups. -/
theorem matchGroup_eq_matches (token : Stateful) (name : String) :
    matchGroup (audiencePath token.group) name token.includeSubgroups = token.matches name ∧
    (token.matches name = true ↔ Opens token.group token.includeSubgroups name) := by
  refine ⟨?_, matches_iff token name⟩
  rw [Bool.eq_iff_iff, matchGroup_iff, matches_iff]

/-- Without subgroups a token of the root does not open the root. -/
theorem not_opens_itself : ¬ ∀ (token : Stateful) (name : String),
    token.matches name = true ↔
      name = token.group ∨ token.includeSubgroups = true ∧ Below token.group name := by
  intro h
  exact absurd ((h { token := "abc", group := "" } "").mpr (.inl rfl)) (by decide)

end Sozvon.Token
