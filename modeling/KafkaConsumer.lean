import KafkaConsumer.Kafka
import KafkaConsumer.Offsets
import KafkaConsumer.Listen
import KafkaConsumer.Invariant
import KafkaConsumer.AtLeastOnce
import KafkaConsumer.Counts
import KafkaConsumer.Rebalance
import KafkaConsumer.Lifecycle
import KafkaConsumer.Exclusion
import KafkaConsumer.Serial
import KafkaConsumer.Lifetime
import KafkaConsumer.Returns
import KafkaConsumer.Reports
import KafkaConsumer.Cadence
import KafkaConsumer.Clock
import KafkaConsumer.Refinement
import KafkaConsumer.WaitGroups
import KafkaConsumer.Shutdown
import KafkaConsumer.Retval
import KafkaConsumer.Resumes
import KafkaConsumer.ErrorReports
