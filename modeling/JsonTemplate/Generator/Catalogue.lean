import JsonTemplate.Generator.Profile
import JsonTemplate.Generator.Time

/-!
# The catalogue of generators

The bundled source of values: one table names the methods that there are, and the catalogue says how
each is answered.
-/

namespace JsonTemplate.Generator

open KeyStream Vocabulary

/-- A word of a list, whatever the arguments. -/
def word (members : List String) : Method :=
  textual (pickText members)

/-- The names of the methods of each namespace. -/
def methodTable : List (String × List String) := [
  ("person",
    ["firstName", "lastName", "middleName", "fullName", "jobTitle", "prefix", "sex"]),
  ("internet",
    ["email", "username", "userName", "domainWord", "domainName", "domainSuffix", "url", "ip", "ipv4",
      "ipv6", "mac", "port", "password"]),
  ("number", ["int", "float"]),
  ("string", ["uuid", "nanoid", "alpha", "alphanumeric", "numeric"]),
  ("datatype", ["boolean"]),
  ("commerce",
    ["price", "productName", "product", "productAdjective", "productMaterial", "department",
      "productDescription"]),
  ("location",
    ["streetAddress", "street", "buildingNumber", "city", "state", "zipCode", "country",
      "countryCode", "latitude", "longitude"]),
  ("date",
    ["recent", "soon", "past", "future", "birthdate", "anytime", "month", "weekday"]),
  ("lorem", ["word", "words", "sentence", "paragraph", "slug"]),
  ("phone", ["number"]),
  ("company", ["name", "catchPhrase"]),
  ("color", ["human", "rgb"]),
  ("finance", ["amount", "accountNumber", "currencyCode"])]

/-- All methods with their namespaces, in the order of the table. -/
def methods : List (String × String) :=
  methodTable.flatMap fun (namespaceName, names) => names.map fun name => (namespaceName, name)

def has (namespaceName method : String) : Bool :=
  methodTable.any fun (name, names) => name == namespaceName && names.contains method

/-- How the methods of each namespace are answered. -/
def catalogue : List (String × List (String × Method)) := [
  ("person", [
    ("firstName", word firstNames),
    ("lastName", word lastNames),
    ("middleName", word firstNames),
    ("fullName", textual fullName),
    ("jobTitle", word jobTitles),
    ("prefix", word titles),
    ("sex", word sexes)]),
  ("internet", [
    ("email", textual email),
    ("username", textual userName),
    ("userName", textual userName),
    ("domainWord", textual domainWord),
    ("domainName", textual domainName),
    ("domainSuffix", word domainSuffixes),
    ("url", textual url),
    ("ip", textual ipv4),
    ("ipv4", textual ipv4),
    ("ipv6", textual (hexGroups 8 4)),
    ("mac", textual (hexGroups 6 2)),
    ("port", portNumber),
    ("password", string passwordCharacters 15)]),
  ("number", [
    ("int", int),
    ("float", float)]),
  ("string", [
    ("uuid", textual uuid),
    ("nanoid", string identifierCharacters 21),
    ("alpha", string letters 1),
    ("alphanumeric", string lettersAndDigits 1),
    ("numeric", string digits 1)]),
  ("datatype", [
    ("boolean", boolean)]),
  ("commerce", [
    ("price", amount 1),
    ("productName", textual productName),
    ("product", word products),
    ("productAdjective", word productAdjectives),
    ("productMaterial", word productMaterials),
    ("department", word departments),
    ("productDescription", textual productDescription)]),
  ("location", [
    ("streetAddress", textual streetAddress),
    ("street", textual street),
    ("buildingNumber", textual (natBetween 1 9999)),
    ("city", word cities),
    ("state", state),
    ("zipCode", textual (characters digits 5)),
    ("country", textual country),
    ("countryCode", textual countryCode),
    ("latitude", coordinate 90),
    ("longitude", coordinate 180)]),
  ("date", [
    ("recent", relativeTime 1 false),
    ("soon", relativeTime 1 true),
    ("past", relativeTime 365 false),
    ("future", relativeTime 365 true),
    ("birthdate", birthdate),
    ("anytime", anytime),
    ("month", word months),
    ("weekday", word weekdays)]),
  ("lorem", [
    ("word", word loremWords),
    ("words", wordList " "),
    ("sentence", sentence),
    ("paragraph", paragraph),
    ("slug", wordList "-")]),
  ("phone", [
    ("number", textual phoneNumber)]),
  ("company", [
    ("name", textual companyName),
    ("catchPhrase", textual catchPhrase)]),
  ("color", [
    ("human", word colors),
    ("rgb", textual rgb)]),
  ("finance", [
    ("amount", amount 0),
    ("accountNumber", string digits 8),
    ("currencyCode", word currencyCodes)])]

def find? (namespaceName method : String) : Option Method :=
  (catalogue.lookup namespaceName).bind (·.lookup method)

def call (now : Calendar.Instant) (namespaceName method : String) : List Json → Gen Json :=
  match find? namespaceName method with
  | some generator => generator now
  | none => fun _ => throw (.unknownMethod namespaceName method)

/-- The bundled source; its state is the key stream. -/
def source (now : Calendar.Instant) : ValueSource KeyStream where
  has namespaceName method := return has namespaceName method
  call := call now

end JsonTemplate.Generator
