import JsonTemplate.Generator.Profile
import JsonTemplate.Proofs.Sampling

/-!
# Drawings of texts

The drawings behind the generators of texts that take no bounds are put together from samples of
something: no list of words is empty, and no alphabet.
-/

namespace JsonTemplate.Generator.Sound

open Vocabulary

theorem uuid : Sound uuid :=
  (bytes 16).map _

theorem words (separator : String) (count : Nat) : Sound (words separator count) :=
  ((pickText (by decide)).drawList count).map fun ws => separator.intercalate ws

theorem sentenceOf (count : Nat) : Sound (sentenceOf count) :=
  (words " " (max 1 count)).map fun t => capitalize t ++ "."

theorem anySentence : Sound anySentence :=
  (intBetween (by decide) (by decide)).bind fun _ => sentenceOf _

theorem fullName : Sound fullName :=
  (pickText (by decide)).bind fun _ => (pickText (by decide)).map _

theorem userName : Sound userName := by
  refine (pickText (by decide)).bind fun _ => (pickText (by decide)).bind fun _ =>
    (intBetween (by decide) (by decide)).bind fun _ => ?_
  split
  · exact (natBetween (by decide) (by decide)).map _
  · split
    · exact .pure _
    · exact (natBetween (by decide) (by decide)).map _

theorem email : Sound email :=
  (pickText (by decide)).bind fun _ => (pickText (by decide)).bind fun _ =>
    (natBetween (by decide) (by decide)).bind fun _ => (pickText (by decide)).map _

theorem domainWord : Sound domainWord :=
  (pickText (by decide)).bind fun _ => (pickText (by decide)).map _

theorem domainName : Sound domainName :=
  domainWord.bind fun _ => (pickText (by decide)).map _

theorem url : Sound url :=
  domainName.map _

theorem ipv4 : Sound ipv4 :=
  ((natBetween (by decide) (by decide)).drawList 4).map _

theorem hexGroups (groups size : Nat) : Sound (hexGroups groups size) :=
  ((characters (by decide) size).drawList groups).map _

theorem productName : Sound productName :=
  (pickText (by decide)).bind fun _ => (pickText (by decide)).bind fun _ =>
    (pickText (by decide)).map _

theorem productDescription : Sound productDescription :=
  productName.bind fun _ => (pickText (by decide)).bind fun _ => (pickText (by decide)).map _

theorem street : Sound street :=
  (pickText (by decide)).bind fun _ => (pickText (by decide)).map _

theorem streetAddress : Sound streetAddress :=
  (natBetween (by decide) (by decide)).bind fun _ => street.map _

theorem country : Sound country :=
  (pick (by decide) _).map Prod.fst

theorem countryCode : Sound countryCode :=
  (pick (by decide) _).map Prod.snd

theorem phoneNumber : Sound phoneNumber :=
  (characters (by decide) 3).bind fun _ => (characters (by decide) 3).bind fun _ =>
    (characters (by decide) 4).map _

theorem companyName : Sound companyName := by
  refine coin.bind fun _ => ?_
  split
  · exact (pickText (by decide)).bind fun _ => (pickText (by decide)).map _
  · exact (pickText (by decide)).bind fun _ => (pickText (by decide)).map _

theorem catchPhrase : Sound catchPhrase :=
  (pickText (by decide)).bind fun _ => (pickText (by decide)).bind fun _ =>
    (pickText (by decide)).map _

theorem rgb : Sound rgb :=
  (characters (by decide) 6).map _

end JsonTemplate.Generator.Sound
