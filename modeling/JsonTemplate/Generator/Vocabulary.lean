/-!
# Vocabulary

The words, names and codes that generated texts are made of.
-/

namespace JsonTemplate.Generator.Vocabulary

def firstNames : List String := [
  "Aaliyah", "Aiden", "Amara", "Andre", "Beatrice", "Benjamin", "Camila", "Carlos", "Chloe",
  "Daniel", "Daria", "Elena", "Elijah", "Emma", "Felix", "Fiona", "Gabriel", "Grace", "Hannah",
  "Hugo", "Isaac", "Isla", "Jasper", "Julia", "Kai", "Keira", "Leo", "Lucia", "Marcus", "Maya",
  "Nadia", "Noah", "Olivia", "Oscar", "Priya", "Quentin", "Rosa", "Samuel", "Sofia", "Theo",
  "Uma", "Victor", "Willa", "Xavier", "Yara", "Zane"]

def lastNames : List String := [
  "Anderson", "Baker", "Castillo", "Chen", "Dubois", "Evans", "Fischer", "Garcia", "Hughes",
  "Ibrahim", "Jensen", "Kowalski", "Lopez", "Morgan", "Nakamura", "Nguyen", "O'Brien", "Patel",
  "Quinn", "Rossi", "Schmidt", "Silva", "Thompson", "Underwood", "Vasquez", "Walker", "Young",
  "Zimmerman"]

def jobTitles : List String := [
  "Account Manager", "Data Analyst", "Designer", "Engineer", "Facilitator", "Orchestrator",
  "Planner", "Product Manager", "Strategist", "Supervisor", "Technician", "Consultant"]

def titles : List String := [
  "Mr.", "Mrs.", "Ms.", "Miss", "Dr."]

def sexes : List String := [
  "female", "male"]

def domainSuffixes : List String := [
  "com", "net", "org", "info", "biz", "io"]

def mailDomains : List String := [
  "gmail.com", "yahoo.com", "hotmail.com", "outlook.com"]

def loremWords : List String := [
  "alias", "amet", "aperiam", "aut", "blanditiis", "commodi", "consequatur", "corporis", "culpa",
  "cumque", "debitis", "delectus", "dolor", "dolore", "dolorem", "eius", "eligendi", "error",
  "esse", "eveniet", "expedita", "facere", "fugiat", "harum", "illum", "impedit", "ipsum",
  "iure", "labore", "laborum", "magnam", "maxime", "minima", "molestiae", "nemo", "nihil",
  "nisi", "nobis", "numquam", "officia", "omnis", "optio", "pariatur", "perferendis", "placeat",
  "porro", "quaerat", "quia", "quibusdam", "quis", "ratione", "recusandae", "repellat", "rerum",
  "saepe", "sapiente", "sequi", "similique", "sint", "soluta", "tempora", "tenetur", "totam",
  "ullam", "vel", "velit", "veniam", "vero", "voluptas", "voluptatem"]

def productAdjectives : List String := [
  "Awesome", "Elegant", "Ergonomic", "Fantastic", "Generic", "Gorgeous", "Handcrafted",
  "Incredible", "Intelligent", "Licensed", "Practical", "Refined", "Rustic", "Sleek", "Small",
  "Tasty", "Unbranded"]

def productMaterials : List String := [
  "Bamboo", "Bronze", "Ceramic", "Concrete", "Cotton", "Fresh", "Frozen", "Granite", "Marble",
  "Metal", "Plastic", "Rubber", "Soft", "Steel", "Wooden"]

def products : List String := [
  "Bacon", "Ball", "Bike", "Car", "Chair", "Cheese", "Chicken", "Chips", "Computer", "Gloves",
  "Hat", "Keyboard", "Mouse", "Pants", "Pizza", "Salad", "Sausages", "Shirt", "Shoes", "Soap",
  "Table", "Towels"]

def departments : List String := [
  "Automotive", "Baby", "Beauty", "Books", "Clothing", "Computers", "Electronics", "Games",
  "Garden", "Grocery", "Health", "Home", "Industrial", "Jewelery", "Kids", "Movies", "Music",
  "Outdoors", "Shoes", "Sports", "Tools", "Toys"]

def cities : List String := [
  "Ashford", "Bellmont", "Brookfield", "Cedar Falls", "Clearwater", "Easton", "Fairview",
  "Glenwood", "Greenville", "Harrisburg", "Kingston", "Lakewood", "Madison", "Milford",
  "Newport", "Oakland", "Riverside", "Salem", "Springfield", "Westfield"]

def streetNames : List String := [
  "Maple", "Oak", "Pine", "Cedar", "Elm", "Washington", "Lake", "Hill", "Park", "Main", "Church",
  "Mill", "Sunset", "Highland"]

def streetSuffixes : List String := [
  "Avenue", "Boulevard", "Court", "Drive", "Lane", "Parkway", "Place", "Road", "Street", "Way"]

/-- The states with their postal codes. -/
def states : List (String × String) := [
  ("Alabama", "AL"), ("Alaska", "AK"), ("Arizona", "AZ"), ("California", "CA"),
  ("Colorado", "CO"), ("Florida", "FL"), ("Georgia", "GA"), ("Illinois", "IL"), ("Maine", "ME"),
  ("Michigan", "MI"), ("Nevada", "NV"), ("New York", "NY"), ("Ohio", "OH"), ("Oregon", "OR"),
  ("Texas", "TX"), ("Utah", "UT"), ("Vermont", "VT"), ("Washington", "WA")]

/-- The countries with their two-letter codes. -/
def countries : List (String × String) := [
  ("Argentina", "AR"), ("Australia", "AU"), ("Brazil", "BR"), ("Canada", "CA"),
  ("Denmark", "DK"), ("Egypt", "EG"), ("France", "FR"), ("Germany", "DE"), ("India", "IN"),
  ("Ireland", "IE"), ("Italy", "IT"), ("Japan", "JP"), ("Kenya", "KE"), ("Mexico", "MX"),
  ("Netherlands", "NL"), ("New Zealand", "NZ"), ("Norway", "NO"), ("Portugal", "PT"),
  ("South Korea", "KR"), ("Spain", "ES"), ("Sweden", "SE"), ("United Kingdom", "GB"),
  ("United States", "US")]

def companySuffixes : List String := [
  "Inc", "LLC", "Group", "and Sons", "Ltd"]

def catchPhraseAdjectives : List String := [
  "Adaptive", "Balanced", "Centralized", "Cross-platform", "Decentralized", "Distributed",
  "Ergonomic", "Focused", "Integrated", "Multi-layered", "Optimized", "Proactive", "Robust",
  "Streamlined", "User-friendly"]

def catchPhraseDescriptors : List String := [
  "24/7", "asynchronous", "bottom-line", "contextually-based", "dynamic", "explicit", "global",
  "heuristic", "interactive", "modular", "real-time", "scalable", "zero tolerance"]

def catchPhraseNouns : List String := [
  "ability", "algorithm", "architecture", "capacity", "database", "framework", "hierarchy",
  "interface", "matrix", "middleware", "paradigm", "policy", "solution", "throughput"]

def colors : List String := [
  "azure", "black", "blue", "cyan", "gold", "green", "grey", "indigo", "lavender", "lime",
  "magenta", "maroon", "mint green", "orange", "orchid", "pink", "plum", "purple", "red",
  "salmon", "silver", "tan", "teal", "turquoise", "violet", "white", "yellow"]

def currencyCodes : List String := [
  "USD", "EUR", "GBP", "JPY", "CAD", "AUD", "CHF", "SEK"]

def months : List String := [
  "January", "February", "March", "April", "May", "June", "July", "August", "September",
  "October", "November", "December"]

def weekdays : List String := [
  "Monday", "Tuesday", "Wednesday", "Thursday", "Friday", "Saturday", "Sunday"]

end JsonTemplate.Generator.Vocabulary
