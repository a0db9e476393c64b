import JsonTemplate.Generator.Text

/-!
# Generated profiles

People, their addresses on the net and on a street, companies and products: texts put together
from the vocabulary, drawn from left to right.
-/

namespace JsonTemplate.Generator

open KeyStream

/-- The ASCII letters and digits of a name. -/
def alphanumeric (s : String) : String :=
  String.ofList (s.toList.filter Char.isAlphanum)

def lower (s : String) : String :=
  String.ofList (s.toList.map Char.toLower)

def fullName : StateM KeyStream String := do
  let first ← pickText Vocabulary.firstNames
  let last ← pickText Vocabulary.lastNames
  return first ++ " " ++ last

def userName : StateM KeyStream String := do
  let first ← pickText Vocabulary.firstNames
  let last := alphanumeric (← pickText Vocabulary.lastNames)
  let form ← intBetween 0 2
  if form = 0 then return first ++ (← natBetween 1 99)
  else if form = 1 then return first ++ "." ++ last
  else return first ++ "_" ++ last ++ (← natBetween 1 99)

def email : StateM KeyStream String := do
  let first := lower (alphanumeric (← pickText Vocabulary.firstNames))
  let last := lower (alphanumeric (← pickText Vocabulary.lastNames))
  let number ← natBetween 1 99
  let domain ← pickText Vocabulary.mailDomains
  return first ++ "." ++ last ++ number ++ "@" ++ domain

def domainWord : StateM KeyStream String := do
  let adjective ← pickText Vocabulary.productAdjectives
  let product ← pickText Vocabulary.products
  return lower adjective ++ "-" ++ lower product

def domainName : StateM KeyStream String := do
  let word ← domainWord
  let ending ← pickText Vocabulary.domainSuffixes
  return word ++ "." ++ ending

def url : StateM KeyStream String := do
  return "https://" ++ (← domainName)

def ipv4 : StateM KeyStream String := do
  return ".".intercalate (← drawList 4 (natBetween 0 255))

/-- Groups of hexadecimal digits between colons. -/
def hexGroups (groups size : Nat) : StateM KeyStream String := do
  return ":".intercalate (← drawList groups (characters hexDigits size))

def portNumber : Method := fun _ _ =>
  return .ofInt (← draw (intBetween 0 65535))

def productName : StateM KeyStream String := do
  let adjective ← pickText Vocabulary.productAdjectives
  let material ← pickText Vocabulary.productMaterials
  let product ← pickText Vocabulary.products
  return adjective ++ " " ++ material ++ " " ++ product

def productDescription : StateM KeyStream String := do
  let name ← productName
  let design ← pickText Vocabulary.productAdjectives
  let comfort ← pickText Vocabulary.productAdjectives
  return "The " ++ name ++ " combines " ++ lower design ++ " design with " ++ lower comfort
    ++ " comfort."

def street : StateM KeyStream String := do
  let name ← pickText Vocabulary.streetNames
  let kind ← pickText Vocabulary.streetSuffixes
  return name ++ " " ++ kind

def streetAddress : StateM KeyStream String := do
  let number ← natBetween 1 9999
  let street ← street
  return number ++ " " ++ street

/-- A state, or its code if the option asks for that. -/
def state : Method := fun _ args => do
  let fields ← options args
  let abbreviated :=
    ((fields.bind (Json.Fields.get? "abbreviated")).bind Json.toBool?).getD false
  let (name, code) ← draw (pick Vocabulary.states ("", ""))
  return .string (if abbreviated then code else name)

def country : StateM KeyStream String := do
  return (← pick Vocabulary.countries ("", "")).1

def countryCode : StateM KeyStream String := do
  return (← pick Vocabulary.countries ("", "")).2

def phoneNumber : StateM KeyStream String := do
  let area ← characters digits 3
  let exchange ← characters digits 3
  let line ← characters digits 4
  return "(" ++ area ++ ") " ++ exchange ++ "-" ++ line

def companyName : StateM KeyStream String := do
  if ← coin then
    let name ← pickText Vocabulary.lastNames
    let form ← pickText Vocabulary.companySuffixes
    return name ++ " " ++ form
  else
    let first ← pickText Vocabulary.lastNames
    let second ← pickText Vocabulary.lastNames
    return first ++ "-" ++ second

def catchPhrase : StateM KeyStream String := do
  let adjective ← pickText Vocabulary.catchPhraseAdjectives
  let descriptor ← pickText Vocabulary.catchPhraseDescriptors
  let noun ← pickText Vocabulary.catchPhraseNouns
  return adjective ++ " " ++ descriptor ++ " " ++ noun

def rgb : StateM KeyStream String := do
  return "#" ++ (← characters hexDigits 6)

def boolean : Method := fun _ _ =>
  return .bool (← draw coin)

end JsonTemplate.Generator
