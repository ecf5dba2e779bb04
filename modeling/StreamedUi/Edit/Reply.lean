import StreamedUi.Text.Blank

/-! Replies of a model that should be HTML. Models put such text between code fences, which are
taken out: three backticks, with the name of the language and a newline if these follow at once. -/

namespace StreamedUi.Edit

/-- What follows the name of the language, if it is there. -/
def dropLanguage : List Char → List Char
  | 'h' :: 't' :: 'm' :: 'l' :: cs => cs
  | 'h' :: 't' :: 'm' :: cs => cs
  | cs => cs

/-- What follows one newline, if it is there. -/
def dropNewline : List Char → List Char
  | '\n' :: cs => cs
  | cs => cs

/-- What follows a fence whose backticks have been read. -/
def afterFence (cs : List Char) : List Char := dropNewline (dropLanguage cs)

theorem length_dropLanguage_le (cs : List Char) : (dropLanguage cs).length ≤ cs.length := by
  unfold dropLanguage
  split <;> simp_all <;> omega

theorem length_dropNewline_le (cs : List Char) : (dropNewline cs).length ≤ cs.length := by
  unfold dropNewline
  split <;> simp

theorem length_afterFence_le (cs : List Char) : (afterFence cs).length ≤ cs.length :=
  Nat.le_trans (length_dropNewline_le _) (length_dropLanguage_le cs)

/-- The text without its fences. -/
def removeFences : List Char → List Char
  | [] => []
  | '\x60' :: '\x60' :: '\x60' :: cs => removeFences (afterFence cs)
  | c :: cs => c :: removeFences cs
  termination_by cs => cs.length
  decreasing_by
    · have := length_afterFence_le cs
      simp only [List.length_cons]
      omega
    · simp

/-- The HTML of a reply. -/
def cleanReply (reply : String) : String :=
  String.ofList (Text.trimChars (removeFences reply.toList))

end StreamedUi.Edit
